/-
Whole runs: any number of threads, each step one thread's work between
taking and releasing a lock.

A step names the operation and the connection it goes through; the
thread is the connection's owner. A thread takes a step only when its
frame is idle, except for the step that its frame is waiting for. The
guards state what PHP code can do at all: it works through live
connections of its own thread and passes values its thread holds, and
the engine frees what nothing refers to any more.
-/
import PmmpThread.Zend.Foreach
import PmmpThread.Model.Ops

namespace PmmpThread.Model

open Zend

inductive Act where
  /-- PHP code makes a string, the engine frees one. -/
  | newString (t : ThreadId) (b : Bytes)
  | freeString (p : StrPtr)
  /-- PHP code makes a closure, the engine frees one. -/
  | newClosure (cl : Closure)
  | freeClosure (p : ClosurePtr)
  /-- `new`: the create handler's allocation, then its constructor. -/
  | alloc (t : ThreadId) (declared : List Key) (scope : Scope)
      (defaults : List (List Default))
  | ctor (t : ThreadId)
  /-- `pmmpthread_object_connect` outside the store. -/
  | connect (t : ThreadId) (a : Addr)
  /-- The thread's connection to the shared globals. -/
  | bindGlobals (a : Addr)
  /-- A worker's done task enters or leaves the gc queue. -/
  | addGarbage (x a : Addr)
  | collect (x : Addr)
  /-- Objects become unreachable, then are freed one by one. -/
  | release (t : ThreadId) (batch : List Addr)
  | baseFree (t : ThreadId)
  /-- Store operations up to the unlock, and what follows it. -/
  | read (c : Addr) (k : Key) (access : Access)
  | write (c : Addr) (key : Option Key) (v : Zval)
  | delete (c : Addr) (k : Key)
  | finish (t : ThreadId)
  | shift (c : Addr)
  | pop (c : Addr)
  | chunk (c : Addr) (size : Int)
  | merge (c source : Addr) (overwrite : Bool)
  | tohash (c : Addr) (own : Bool)
  | sync (c : Addr)
  | fullSync (c : Addr) (fuel : Nat)
  | join (x : Addr) (fuel : Nat)

/-- A frame in which the thread runs PHP code. -/
def Frame.isIdle : Frame → Bool
  | .idle => true
  | _ => false

/-- The objects a frame is about to free. -/
def Frame.batch : Frame → List Addr
  | .freeing batch => batch
  | _ => []

/-- A zend object holds a reference to another one. -/
def ZObj.refersTo (z : ZObj) (a : Addr) : Bool :=
  (z.loc.table.entries.any fun e => e.2 == .object a) || a ∈ z.gc

/-- A zend object's local table holds a string. -/
def ZObj.holdsString (z : ZObj) (p : StrPtr) : Bool :=
  z.loc.table.entries.any fun e => e.2 == .string p

namespace World

/-- The live, constructed connection `c` of a thread that runs PHP
code. -/
def ready (w : World) (c : Addr) : Option Conn :=
  (w.conn c).filter fun x => (w.frame x.z.owner).isIdle

/-- Thread `t` holds the value. -/
def holds (E : Engine) (w : World) (t : ThreadId) : Zval → Bool
  | .object a => (w.conn a).any fun x => x.z.owner == t
  | .string p => (w.strings.get p).any fun s => s.owner == t
  | .closure p => w.closures[p]?.any fun cl => cl.owner == t && cl.live
  | .enumCase cls name => E.enumResolves t cls name
  | _ => true

/-- What the engine may find unreachable on thread `t`: live objects of
the thread that only objects found with them refer to. -/
def canRelease (w : World) (t : ThreadId) (batch : List Addr) : Bool :=
  (w.frame t).isIdle && decide batch.Nodup && !batch.isEmpty
    && batch.all (fun a => (w.conn a).any fun x => x.z.owner == t)
    && w.mem.cells.entries.all fun e =>
      e.1 ∈ batch || batch.all fun a => !(e.2.refersTo a)

/-- A string of a thread that runs PHP code and that no local table
holds. -/
def canFreeString (w : World) (p : StrPtr) : Bool :=
  (w.strings.get p).any (fun s => (w.frame s.owner).isIdle)
    && w.mem.cells.entries.all fun e => !(e.2.holdsString p)

def freeClosure (w : World) (p : ClosurePtr) : World :=
  { w with closures := w.closures.modify p fun cl =>
      { cl with live := false } }

/-- The step that a pending frame is waiting for, after
`pmmpthread_store_read`, `_write` or `_delete` has unlocked. -/
def finish (w : World) (t : ThreadId) : Option World :=
  match w.frame t with
  | .fill c k v => some ((w.updateLocalProperty c k v).setFrame t .idle)
  | .drop c k =>
      some ({ w with mem := w.mem.modify c fun z =>
        { z with loc := z.loc.del k } }.setFrame t .idle)
  | _ => none

/-- The frame a read leaves. -/
def afterRead (t : ThreadId) (c : Addr) (k : Key) :
    ReadResult × World → Option World
  | (.restored v, w) => some (w.setFrame t (.fill c k v))
  | (.fault, _) => none
  | (_, w) => some w

/-- One step; `none` when the guard fails or the process faults. -/
def step (E : Engine) (w : World) : Act → Option World
  | .newString t b =>
      if (w.frame t).isIdle then some (w.newString E t b).2 else none
  | .freeString p =>
      if w.canFreeString p then some { w with strings := w.strings.free p }
      else none
  | .newClosure cl =>
      if (w.frame cl.owner).isIdle && cl.live then some (w.newClosure cl).2
      else none
  | .freeClosure p =>
      -- the engine destroys the bound variables
      if w.closures[p]?.all fun cl => .uninit ∉ cl.uses then
        some (w.freeClosure p)
      else none
  | .alloc t declared scope defaults =>
      if (w.frame t).isIdle && defaults.flatten.all (fun d => w.holds E t d.2)
      then
        let r := w.objectAlloc E t declared
        some (r.2.setFrame t (.allocated r.1 scope defaults))
      else none
  | .ctor t =>
      match w.frame t with
      | .allocated a scope defaults =>
          (w.baseCtor E t a scope defaults).map (·.setFrame t .idle)
      | _ => none
  | .connect t a =>
      if (w.frame t).isIdle then
        match w.objectConnect E t a with
        | (.fault, _) => none
        | (_, w') => some w'
      else none
  | .bindGlobals a =>
      (w.ready a).map fun x =>
        { w with
          threadSharedGlobals :=
            Function.update w.threadSharedGlobals x.z.owner (some a) }
  | .addGarbage x a =>
      match w.conn x, w.conn a with
      | some cx, some ca =>
          if ca.z.owner = cx.z.owner ∧ x ∉ (w.frame cx.z.owner).batch
              ∧ a ∉ (w.frame cx.z.owner).batch then
            some { w with mem := w.mem.modify x fun z =>
              { z with gc := z.gc ++ [a] } }
          else none
      | _, _ => none
  | .collect x =>
      (w.ready x).map fun _ =>
        { w with mem := w.mem.modify x fun z => { z with gc := z.gc.tail } }
  | .release t batch =>
      if w.canRelease t batch then some (w.setFrame t (.freeing batch))
      else none
  | .baseFree t =>
      match w.frame t with
      | .freeing (a :: batch) =>
          (w.baseFree t a).map (·.setFrame t
            (if batch.isEmpty then .idle else .freeing batch))
      | _ => none
  | .read c k access =>
      (w.ready c).bind fun x =>
        afterRead x.z.owner c k (w.readLocked E c k access)
  | .write c key v =>
      (w.ready c).bind fun x =>
        if w.holds E x.z.owner v then
          (w.writeLocked c key v).map fun r =>
            r.2.setFrame x.z.owner (.fill c r.1 v)
        else none
  | .delete c k =>
      (w.ready c).bind fun x =>
        (w.deleteLocked c k).map fun r =>
          if r.1 then r.2.setFrame x.z.owner (.drop c k) else r.2
  | .finish t => w.finish t
  | .shift c => (w.ready c).bind fun _ => (w.storeShift E c).map (·.2)
  | .pop c => (w.ready c).bind fun _ => (w.storePop E c).map (·.2)
  | .chunk c size => (w.ready c).bind fun _ => (w.storeChunk E c size).map (·.2)
  | .merge c source overwrite =>
      (w.ready c).bind fun x =>
        (w.ready source).bind fun y =>
          if x.z.owner = y.z.owner then w.storeMerge c source overwrite
          else none
  | .tohash c own => (w.ready c).bind fun _ => w.storeTohash E c own
  | .sync c =>
      (w.ready c).map fun x =>
        w.setLocal c (w.syncLocal x.z.owner x.o.props x.z.loc)
  | .fullSync c fuel =>
      (w.ready c).bind fun x => fullSync E x.z.owner fuel [] w c
  | .join x fuel =>
      (w.ready x).bind fun cx =>
        if cx.o.creator = cx.z.owner then joinSync E fuel w cx.z.owner x
        else none

/-- The world after a sequence of steps. -/
def run (E : Engine) (w : World) (acts : List Act) : Option World :=
  acts.foldlM (step E) w

/-- A world that some run of some threads reaches. -/
def Reachable (E : Engine) (w : World) : Prop :=
  ∃ acts, run E init acts = some w

theorem run_cons {E : Engine} {w w' : World} {act : Act} {acts : List Act} :
    run E w (act :: acts) = some w'
      ↔ ∃ u, step E w act = some u ∧ run E u acts = some w' :=
  foldlM_cons_iff

/-- Every step of the run satisfies `P`. -/
def AllSteps (E : Engine) (P : World → Act → World → Prop) :
    World → List Act → Prop
  | _, [] => True
  | w, act :: acts => ∀ u, step E w act = some u →
      P w act u ∧ AllSteps E P u acts

/-- A property of all steps of certain kinds. -/
theorem AllSteps.of_forall {E : Engine} {P : World → Act → World → Prop}
    {acts : List Act} : (∀ act ∈ acts, ∀ w w', P w act w') →
      ∀ {w : World}, AllSteps E P w acts := by
  induction acts with
  | nil => exact fun _ _ => trivial
  | cons act acts ih =>
      exact fun h w u _ => ⟨h act List.mem_cons_self w u,
        ih fun a ha => h a (List.mem_cons_of_mem _ ha)⟩

/-- What every step that satisfies `P` keeps holds at the end of a run
of such steps. -/
theorem AllSteps.run_induct {E : Engine} {P : World → Act → World → Prop}
    {I : World → Prop} (hstep : ∀ w act w', I w →
      step E w act = some w' → P w act w' → I w') (acts : List Act) :
    ∀ {w w' : World}, I w → AllSteps E P w acts →
      run E w acts = some w' → I w' := by
  induction acts with
  | nil =>
      intro w w' hi _ hr
      injection hr with hr
      exact hr ▸ hi
  | cons act acts ih =>
      intro w w' hi hall hr
      obtain ⟨u, hu, hr⟩ := run_cons.mp hr
      obtain ⟨hp, hall⟩ := hall u hu
      exact ih (hstep w act u hi hu hp) hall hr

theorem Reachable.after {E : Engine} {w w' : World} {act : Act}
    (h : Reachable E w) (hstep : step E w act = some w') :
    Reachable E w' := by
  obtain ⟨acts, hacts⟩ := h
  exact ⟨acts ++ [act], foldlM_append_iff.mpr
    ⟨w, hacts, foldlM_cons_iff.mpr ⟨w', hstep, rfl⟩⟩⟩

/-- A property of the initial world that every step keeps holds of
every reachable world. -/
theorem Reachable.induct {E : Engine} {P : World → Prop} (h0 : P init)
    (hstep : ∀ w act w', P w → step E w act = some w' → P w') {w : World}
    (h : Reachable E w) : P w := by
  obtain ⟨acts, hacts⟩ := h
  exact foldlM_induct acts (fun _ hp hs => hstep _ _ _ hp hs) h0 hacts

end World

/-- An engine for examples: addresses by the given allocator, every
enum, function and class known. -/
def demoEngine (object : Allocator) : Engine where
  object := object
  shared := .bump
  string := .bump
  enumLoaded _ _ := true
  enumResolves _ _ _ := true
  functionKnown _ _ := true
  initializes _ _ := true

end PmmpThread.Model
