/-
The state all threads share and the life of a connection: the zend
objects of every thread, the `pmmpthread_object_t`s behind them, the
global `objects` table, each thread's `resolve` table and its
`connecting_object` (src/object.c, src/globals.c).

# Memory

Zend objects, ts_objs and strings live in heaps whose allocator may
hand out any address that is not in use (`Zend/Heap.lean`). Reading
memory that is not live is undefined behaviour; a function of the model
then answers `fault` or `none`, and the run has no next state.

# Threads

A thread is the context that `owner.ls` points to. What a thread has
still to do after it released a lock is its `Frame`; while a frame is
pending the thread does nothing else, and other threads may run.

- `fill`, `drop`: the update of the local table in
  `pmmpthread_store_read`, `_write` and `_delete`.
- `allocated`: a `new` between `pmmpthread_globals_object_alloc` and
  `pmmpthread_base_ctor`.
- `freeing`: objects the engine has found unreachable and whose
  `pmmpthread_base_free` is still to come. Reference counts of zend
  objects are not modelled; that the engine frees only what nothing
  refers to is the guard of the step that opens this frame.

# Nested construction

`object_init_ex` resolves the constants of a class before it calls the
class's create handler, which may run an autoloader and so any user code.
That code may construct ThreadSafe objects or call
`pmmpthread_object_connect`, between the assignment of
`connecting_object` and the create handler that reads it. User code is a
sequence of constructions and connects (`Prog`). Each has a gap: the user
code that the engine runs before the create handler; the gap of a connect
is run only if the connect has to create its connection. `exec` also says
whether everything that was made is what was asked for: a construction
yields a ts_obj that did not exist, a connect to `a` the ts_obj of `a`.
-/
import PmmpThread.Zend.Heap
import PmmpThread.Model.Value

namespace PmmpThread.Model

open Zend

/-- `PMMPTHREAD_SCOPE_*`. -/
inductive Scope where
  | threaded
  | thread
  | worker
  deriving DecidableEq, Repr

/-- `pmmpthread_zend_object_t`. `tsObj` is null until
`pmmpthread_base_ctor`; `declared` are the names of the class's object
properties; `gc` is the gc queue of `worker_data`. -/
structure ZObj where
  owner : ThreadId
  tsObj : Option TsAddr
  loc : Local
  declared : List Key
  gc : List Addr

/-- `pmmpthread_object_t`; `birth` is a serial number that the code does
not have. -/
structure TsObj where
  refcount : Nat
  creator : ThreadId
  scope : Scope
  props : Store Storage
  birth : Nat

/-- A refcounted string of one thread's heap. -/
structure Str where
  owner : ThreadId
  bytes : Bytes

/-- A bound variable of a closure: a ThreadSafe object, null, or a zval
that was never written. -/
inductive Use (α : Type) where
  | object (a : α)
  | null
  | uninit
  deriving DecidableEq, Repr

def Use.map {α β : Type} (f : α → β) : Use α → Use β
  | .object a => .object (f a)
  | .null => .null
  | .uninit => .uninit

/-- A `Closure` of one thread. `body` stands for its code, `uses` for
its bound variables, those with scalars, strings or enum cases left out;
`fake` marks a first-class callable. -/
structure Closure where
  owner : ThreadId
  thisObj : Option Addr
  uses : List (Use Addr)
  body : Nat
  fake : Bool
  threadSafe : Bool
  live : Bool

/-- A default of a declared property. -/
abbrev Default := Key × Zval

inductive Frame where
  | idle
  | allocated (a : Addr) (scope : Scope) (defaults : List (List Default))
  | fill (c : Addr) (k : Key) (v : Zval)
  | drop (c : Addr) (k : Key)
  | freeing (batch : List Addr)

structure World where
  mem : Heap ZObj
  shared : Heap TsObj
  strings : Heap Str
  closures : List Closure
  objects : List Addr
  resolve : ThreadId → TsAddr → Option Addr
  connecting : ThreadId → Option Addr
  threadSharedGlobals : ThreadId → Option Addr
  frame : ThreadId → Frame
  births : Nat

/-- What the engine decides: addresses, which enums, enum cases and
functions a thread knows, and whether `object_init_ex` on a thread can
resolve the constants of the class of an object. -/
structure Engine where
  object : Allocator
  shared : Allocator
  string : Allocator
  enumLoaded : ThreadId → Bytes → Bool
  enumResolves : ThreadId → Bytes → Bytes → Bool
  functionKnown : ThreadId → Nat → Bool
  initializes : ThreadId → Nat → Bool

namespace World

/-- Before the first request. -/
def init : World where
  mem := .empty
  shared := .empty
  strings := .empty
  closures := []
  objects := []
  resolve _ _ := none
  connecting _ := none
  threadSharedGlobals _ := none
  frame _ := .idle
  births := 0

/-- The ts_obj a zend object points to. -/
def tsOf (w : World) (a : Addr) : Option TsAddr :=
  (w.mem.get a).bind ZObj.tsObj

theorem tsOf_of_get {w : World} {a : Addr} {z : ZObj}
    (hz : w.mem.get a = some z) : w.tsOf a = z.tsObj := by
  unfold tsOf
  rw [hz]
  rfl

/-- The identity of the ts_obj a zend object points to. -/
def birthOf (w : World) (a : Addr) : Option Nat :=
  ((w.tsOf a).bind w.shared.get).map TsObj.birth

def setLocal (w : World) (c : Addr) (l : Local) : World :=
  { w with mem := w.mem.modify c fun z => { z with loc := l } }

def setStore (w : World) (s : TsAddr) (p : Store Storage) : World :=
  { w with shared := w.shared.modify s fun o => { o with props := p } }

def setFrame (w : World) (t : ThreadId) (f : Frame) : World :=
  { w with frame := Function.update w.frame t f }

/-- A new string in the heap of thread `t`. -/
def newString (E : Engine) (w : World) (t : ThreadId) (b : Bytes) :
    StrPtr × World :=
  (w.strings.next E.string,
    { w with strings := w.strings.place (w.strings.next E.string) ⟨t, b⟩ })

/-- `pmmpthread_globals_object_valid`. -/
def objectValid (w : World) (a : Addr) : Bool := a ∈ w.objects

-- ======================================== sync of one local table

/-- The comparison in `pmmpthread_store_sync_local_properties` between
a storage and the value that thread `t` caches for it. -/
def keepCached (w : World) (t : ThreadId) : Storage → Zval → Bool
  | .object shared _, .object loc =>
      shared == loc || (w.objectValid shared && w.tsOf shared == w.tsOf loc)
  | .closure shared _ _, .closure loc => shared == loc
  | .socket shared, .socket loc => shared.bsdSocket == loc.bsdSocket
  | .stringPtr owner shared _, .string loc => owner == t && shared == loc
  | _, _ => false

/-- `pmmpthread_store_sync_local_properties` on a local table `l` of
thread `t`. -/
def syncLocal (w : World) (t : ThreadId) (s : Store Storage) (l : Local) :
    Local :=
  l.sync (w.keepCached t) s.hash s.modcount

-- =================================================== writing a value

/-- `pmmpthread_store_save_zval`, with `pmmpthread_store_create`;
`source` is the owner of the connection written through. -/
def saveZval (w : World) (source : ThreadId) : Zval → Option Storage
  | .null => some .null
  | .bool b => some (.bool b)
  | .long n => some (.long n)
  | .double d => some (.double d)
  | .interned b => some (.string true b)
  | .string p =>
      (w.strings.get p).map fun s => .stringPtr source p s.bytes
  | .enumCase cls name => some (.enumCase cls name)
  | .closure p =>
      w.closures[p]?.bind fun cl =>
        if cl.threadSafe then some (.closure p cl.thisObj source) else none
  | .object a => (w.birthOf a).map fun b => .object a b
  | .socket s => some (.socket s)
  | .undef | .other | .indirect => none

/-- What `pmmpthread_store_write` does while it holds the monitor, for
the storage `st` of the value written: the member it wrote, the local
table and the store it leaves. -/
def writeStore (w : World) (t : ThreadId) (l : Local) (s : Store Storage)
    (key : Option Key) (st : Storage) : Key × Local × Store Storage :=
  let k := s.member key
  let r := bumpIf (memberIsCacheable s.hash k) l (s.write key st true)
  (k, w.syncLocal t r.2 r.1, r.2)

/-- `pmmpthread_store_write` up to the unlock: the member written and
the world after it; `none` is `FAILURE`. -/
def writeLocked (w : World) (c : Addr) (key : Option Key) (v : Zval) :
    Option (Key × World) :=
  match w.mem.get c with
  | none => none
  | some z =>
    match z.tsObj with
    | none => none
    | some s =>
      match w.shared.get s, w.saveZval z.owner v with
      | some o, some st =>
          let r := w.writeStore z.owner z.loc o.props key st
          some (r.1, (w.setStore s r.2.2).setLocal c r.2.1)
      | _, _ => none

/-- The end of `pmmpthread_store_read` and `pmmpthread_store_write`. -/
def updateLocalProperty (w : World) (c : Addr) (k : Key) (v : Zval) : World :=
  { w with mem := w.mem.modify c fun z =>
      { z with loc := z.loc.updateLocalProperty z.declared k v } }

/-- `pmmpthread_store_write` on an object no other thread can see. -/
def write (w : World) (c : Addr) (key : Option Key) (v : Zval) :
    Option World :=
  (w.writeLocked c key v).map fun r => r.2.updateLocalProperty c r.1 v

/-- One class's share of `pmmpthread_base_write_property_defaults`: a
default that cannot be stored throws and ends this class's loop. -/
def writeClassDefaults (w : World) (c : Addr) : List Default → World
  | [] => w
  | (k, v) :: rest =>
      if v = .undef then w.writeClassDefaults c rest
      else match w.write c (some k) v with
        | some w' => w'.writeClassDefaults c rest
        | none => w

/-- `pmmpthread_base_write_property_defaults`: the object's class first,
then its ancestors. -/
def writePropertyDefaults (w : World) (c : Addr)
    (defaults : List (List Default)) : World :=
  defaults.foldl (fun w d => w.writeClassDefaults c d) w

-- ====================================================== construction

/-- `pmmpthread_globals_object_alloc`. The owner is filled in by
`pmmpthread_base_ctor`; until then no code reads it. -/
def objectAlloc (E : Engine) (w : World) (t : ThreadId)
    (declared : List Key) : Addr × World :=
  let a := w.mem.next E.object
  (a, { w with
    mem := w.mem.place a
      { owner := t, tsObj := none, loc := ⟨none, 0⟩, declared, gc := [] }
    objects := w.objects.insert a })

/-- `pmmpthread_ts_object_ctor`, and the object that gets it. -/
def tsObjectCtor (E : Engine) (w : World) (t : ThreadId) (a : Addr)
    (scope : Scope) : World :=
  let s := w.shared.next E.shared
  { w with
    shared := w.shared.place s
      { refcount := 1, creator := t, scope, props := .init, birth := w.births }
    mem := w.mem.modify a fun z => { z with tsObj := some s }
    births := w.births + 1 }

/-- `_pmmpthread_connect_nolock`; a new object has no properties to
clean. -/
def connectNolock (w : World) (source destination : Addr) : Option World :=
  (w.tsOf source).map fun s =>
    { w with
      mem := w.mem.modify destination fun z => { z with tsObj := some s }
      shared := w.shared.modify s fun o =>
        { o with refcount := o.refcount + 1 } }

/-- The end of `pmmpthread_base_ctor`: `zend_hash_index_add_ptr` on the
resolve table, which keeps an entry that is there, and the local
modification count. -/
def registerObject (w : World) (t : ThreadId) (a : Addr) : World :=
  match w.tsOf a with
  | none => w
  | some s =>
      { w with
        resolve :=
          match w.resolve t s with
          | some _ => w.resolve
          | none => Function.update w.resolve t
              (Function.update (w.resolve t) s (some a))
        mem := w.mem.modify a fun z =>
          { z with loc := { z.loc with
              modcount := (((w.shared.get s).map fun o =>
                o.props.modcount).getD 0) - 1 } } }

/-- `pmmpthread_base_ctor`. -/
def baseCtor (E : Engine) (w : World) (t : ThreadId) (a : Addr)
    (scope : Scope) (defaults : List (List Default)) : Option World :=
  match w.connecting t with
  | some source => (w.connectNolock source a).map (·.registerObject t a)
  | none =>
      some (((w.tsObjectCtor E t a scope).writePropertyDefaults a
        defaults).registerObject t a)

/-- A class's create handler, `pmmpthread_threaded_base_ctor` and its
siblings. -/
def createObject (E : Engine) (w : World) (t : ThreadId)
    (declared : List Key) (scope : Scope) (defaults : List (List Default)) :
    Option (Addr × World) :=
  let r := w.objectAlloc E t declared
  (r.2.baseCtor E t r.1 scope defaults).map fun w' => (r.1, w')

-- ======================================================== connections

/-- How `pmmpthread_object_connect` ends. `failed` is the answer for
`ok` with null instead of an object, and an `Error` is pending. -/
inductive Connected where
  | ok (a : Addr)
  | gone
  | failed
  | fault
  deriving DecidableEq, Repr

/-- What `pmmpthread_object_connect` finds before it creates anything:
`none` when a new connection has to be made. -/
def findConnection (w : World) (t : ThreadId) (a : Addr) :
    Option Connected :=
  if w.objectValid a then
    match w.mem.get a with
    | none => some .fault
    | some z =>
        if z.owner = t then some (.ok a)
        else (z.tsObj.bind (w.resolve t)).map .ok
  else some .gone

/-- The declared properties of the class of `a`, which
`pmmpthread_prepare_single_class` copies. -/
def declaredOf (w : World) (a : Addr) : List Key :=
  ((w.mem.get a).map ZObj.declared).getD []

def setConnecting (w : World) (t : ThreadId) (a : Option Addr) : World :=
  { w with connecting := Function.update w.connecting t a }

/-- Thread `t` can initialise the class of `a`. -/
def initializes (E : Engine) (w : World) (t : ThreadId) (a : Addr) : Bool :=
  (w.birthOf a).all (E.initializes t)

/-- Thread `t` needs no new connection for `a`, or can initialise its
class. -/
def connectable (E : Engine) (w : World) (t : ThreadId) (a : Addr) : Bool :=
  (w.findConnection t a).isSome || w.initializes E t a

/-- `pmmpthread_object_connect` on thread `t`. -/
def objectConnect (E : Engine) (w : World) (t : ThreadId) (a : Addr) :
    Connected × World :=
  match w.findConnection t a with
  | some r => (r, w)
  | none =>
      if w.initializes E t a then
        match (w.setConnecting t (some a)).createObject E t (w.declaredOf a)
            .threaded [] with
        | some (l, w') => (.ok l, w'.setConnecting t none)
        | none => (.fault, w)
      -- what `object_init_ex` returns is not looked at
      else (.failed, w.setConnecting t none)

-- ============================================================ freeing

/-- One element of `pmmpthread_store_persist_local_properties`: a string
of thread `t` becomes a persistent copy. -/
def persistStorage (w : World) (t : ThreadId) : Storage → Storage
  | .stringPtr owner p b =>
      if owner = t then
        match w.strings.get p with
        | some s => .string false s.bytes
        | none => .stringPtr owner p b
      else .stringPtr owner p b
  | st => st

/-- A string that `pmmpthread_store_persist_local_properties` would
read is no longer there. -/
def danglesFor (w : World) (t : ThreadId) : Storage → Bool
  | .stringPtr owner p _ => owner == t && (w.strings.get p).isNone
  | _ => false

/-- `pmmpthread_store_persist_local_properties`; `none` when it would
read a freed string. -/
def persistLocalProperties (w : World) (t : ThreadId) (s : TsAddr) :
    Option World :=
  match w.shared.get s with
  | none => none
  | some o =>
      if o.props.hash.entries.any fun e => w.danglesFor t e.2 then none
      else some (w.setStore s
        { o.props with hash := o.props.hash.mapVal (w.persistStorage t) })

def setRefcount (w : World) (s : TsAddr) (n : Nat) : World :=
  { w with shared := w.shared.modify s fun o => { o with refcount := n } }

/-- The primary connection leaves the resolve table. -/
def dropResolve (w : World) (t : ThreadId) (s : TsAddr) (a : Addr) : World :=
  if w.resolve t s = some a then
    { w with
      resolve := Function.update w.resolve t
        (Function.update (w.resolve t) s none) }
  else w

/-- The thread's own connection to the shared globals. -/
def dropGlobals (w : World) (t : ThreadId) (a : Addr) : World :=
  if w.threadSharedGlobals t = some a then
    { w with
      threadSharedGlobals := Function.update w.threadSharedGlobals t none }
  else w

/-- `pmmpthread_globals_object_delete`, and the memory of the object. -/
def objectDelete (w : World) (a : Addr) : World :=
  { w with mem := w.mem.free a, objects := w.objects.filter (· ≠ a) }

/-- `pmmpthread_base_free` of an object of thread `t`; `none` when it
would read freed memory. -/
def baseFree (w : World) (t : ThreadId) (a : Addr) : Option World :=
  match w.tsOf a with
  | none => none
  | some s =>
      let w := (w.dropResolve t s a).dropGlobals t a
      match w.shared.get s with
      | none => none
      | some o =>
          if o.refcount - 1 = 0 then
            some ({ w with shared := w.shared.free s }.objectDelete a)
          else
            ((w.setRefcount s (o.refcount - 1)).persistLocalProperties t
              s).map (·.objectDelete a)

end World

-- ================================================ nested construction

/-- What a create handler takes from its class. -/
structure Class where
  declared : List Key
  scope : Scope
  defaults : List (List Default)

/-- User code of one thread. `cls` of a connect is the class of the
object connected to, as `pmmpthread_prepare_single_class` copies it. -/
inductive Prog where
  | done
  | construct (cls : Class) (gap next : Prog)
  | connect (a : Addr) (cls : Class) (gap next : Prog)

namespace World

def create (E : Engine) (w : World) (t : ThreadId) (cls : Class) :
    Option (Addr × World) :=
  w.createObject E t cls.declared cls.scope cls.defaults

/-- The object `l` of `w'` has a ts_obj that is not in `w`. -/
def hasNewTs (w w' : World) (l : Addr) : Bool :=
  ((w'.tsOf l).map fun s => (w.shared.get s).isNone).getD false

/-- The user code of thread `t` run to its end; `none` when it would read
memory that is not there. -/
def exec (E : Engine) (t : ThreadId) : Prog → World → Option (World × Bool)
  | .done, w => some (w, true)
  | .construct cls gap next, w =>
      (exec E t gap w).bind fun g =>
        (g.1.create E t cls).bind fun m =>
          (exec E t next m.2).map fun n =>
            (n.1, g.2 && g.1.hasNewTs m.2 m.1 && n.2)
  | .connect a cls gap next, w =>
      match w.findConnection t a with
      | some .fault => none
      | some .gone | some .failed => exec E t next w
      | some (.ok l) =>
          (exec E t next w).map fun n => (n.1, w.tsOf l == w.tsOf a && n.2)
      | none =>
          (exec E t gap (w.setConnecting t (some a))).bind fun g =>
            (g.1.create E t cls).bind fun m =>
              (exec E t next (m.2.setConnecting t none)).map fun n =>
                (n.1, g.2 && m.2.tsOf m.1 == w.tsOf a && n.2)

end World

end PmmpThread.Model
