/-
Requests and the shared globals (src/php_pmmpthread.c, src/object.c):
the array that `Thread::getSharedGlobals` returns. The first request to
start makes it, every other request connects to it, and
`pmmpthread_base_free` forgets it where it frees the connection.

The world has each thread's `PMMPTHREAD_ZG(thread_shared_globals)`; the
module's `PMMPTHREAD_G(thread_shared_globals)` is `globals` here.
`inRequest` says that the thread is between RINIT and RSHUTDOWN, and so
holds the reference that RINIT took.

RINIT also empties tables of the thread that are empty between two
requests; that is not repeated here.
-/
import PmmpThread.Model.Merge

namespace PmmpThread.Model

open Zend

structure Process where
  world : World
  globals : Option Addr
  inRequest : ThreadId → Bool

namespace World

/-- The end of `pmmpthread_init_thread_shared_globals`. -/
def setGlobals (w : World) (t : ThreadId) (l : Addr) : World :=
  { w with
    threadSharedGlobals :=
      Function.update w.threadSharedGlobals t (some l) }

/-- The object that a step frees. -/
def freedBy (w : World) : Act → Option Addr
  | .baseFree t => (w.frame t).batch.head?
  | _ => none

end World

namespace Process

/-- Before the first request. -/
def init : Process := ⟨World.init, none, fun _ => false⟩

/-- `pmmpthread_init_thread_shared_globals`, all of it under the globals
lock; `none` where it asserts that it cannot be, or goes on with null
where the class of the array cannot be initialised. -/
def initThreadSharedGlobals (E : Engine) (p : Process) (t : ThreadId) :
    Option Process :=
  match p.globals with
  | some g =>
      match p.world.objectConnect E t g with
      | (.ok l, w) => some { p with world := w.setGlobals t l }
      | _ => none
  | none =>
      (p.world.newArray E t).map fun r =>
        { p with world := r.2.setGlobals t r.1, globals := some r.1 }

/-- RINIT: between two requests a thread has freed all of its objects. -/
def rinit (E : Engine) (p : Process) (t : ThreadId) : Option Process :=
  if (p.world.frame t).isIdle && !p.inRequest t
      && (p.world.threadSharedGlobals t).isNone then
    (p.initThreadSharedGlobals E t).map fun q =>
      { q with inRequest := Function.update q.inRequest t true }
  else none

/-- RSHUTDOWN: the reference is given back. -/
def rshutdown (p : Process) (t : ThreadId) : Option Process :=
  if (p.world.frame t).isIdle && p.inRequest t then
    some { p with inRequest := Function.update p.inRequest t false }
  else none

/-- The step does not free what RINIT holds a reference to, and leaves
the binding of the globals to RINIT. -/
def allows (p : Process) : Act → Bool
  | .release t batch =>
      !p.inRequest t || batch.all fun a =>
        p.world.threadSharedGlobals t != some a
  | .bindGlobals _ => false
  | _ => true

inductive Event where
  | rinit (t : ThreadId)
  | rshutdown (t : ThreadId)
  | act (act : Act)

/-- One event; the free of the module's own connection clears the
module's variable. -/
def step (E : Engine) (p : Process) : Event → Option Process
  | .rinit t => p.rinit E t
  | .rshutdown t => p.rshutdown t
  | .act a =>
      if p.allows a then
        (p.world.step E a).map fun w =>
          { p with
            world := w
            globals := p.globals.filter fun g =>
              p.world.freedBy a != some g }
      else none

def run (E : Engine) (p : Process) (es : List Event) : Option Process :=
  es.foldlM (step E) p

def Reachable (E : Engine) (p : Process) : Prop :=
  ∃ es, run E init es = some p

/-- `Thread::getSharedGlobals` on the two threads is the same ts_obj. -/
def Agree (p : Process) : Prop :=
  ∀ t t' l l', p.world.threadSharedGlobals t = some l →
    p.world.threadSharedGlobals t' = some l' →
    p.world.tsOf l = p.world.tsOf l'

/-- The event starts no second array: where RINIT finds none, no thread
has a connection to one. -/
def NoSecond (p : Process) (e : Event) : Prop :=
  ∀ t, e = .rinit t → p.globals = none →
    ∀ t', p.world.threadSharedGlobals t' = none

/-- No event of the run starts a second array. -/
def OneArray (E : Engine) : Process → List Event → Prop
  | _, [] => True
  | p, e :: es => p.NoSecond e ∧ ∀ q, step E p e = some q → OneArray E q es

end Process

end PmmpThread.Model
