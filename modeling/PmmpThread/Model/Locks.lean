/-
The lock operations of the threads: which mutexes each operation takes
and releases, in order, with the calls it makes inside. Both the globals
lock and the monitors of the ts_objs are recursive mutexes
(src/monitor.c).

# What is left out

Everything but the locks. Which cached objects a sync looks up and drops,
what goes with them, how many connections a restored value needs and
whether they exist already are parameters of the operations: a run may
have any of them.
-/
import PmmpThread.Pthread.Mutex
import PmmpThread.Model.Value

namespace PmmpThread.Model

open Pthread

inductive Lock where
  /-- `PMMPTHREAD_G(monitor)`. -/
  | globals
  /-- The monitor of a ts_obj. -/
  | monitor (s : TsAddr)
  deriving DecidableEq

namespace Locks

/-- Code between `pmmpthread_monitor_lock` and `_unlock`. -/
def guarded (l : Lock) (code : List (LockOp Lock)) : List (LockOp Lock) :=
  .lock l :: code ++ [.unlock l]

/-- `pmmpthread_globals_object_valid`. -/
def objectValid : List (LockOp Lock) := guarded .globals []

/-- `pmmpthread_globals_object_alloc`. -/
def objectAlloc : List (LockOp Lock) := guarded .globals []

/-- `pmmpthread_globals_object_delete`. -/
def objectDelete : List (LockOp Lock) := guarded .globals []

/-- `pmmpthread_base_free`: the ts_obj is freed or its local strings are
persisted, either with its monitor held. -/
def baseFree (s : TsAddr) : List (LockOp Lock) :=
  guarded .globals (guarded (.monitor s) [] ++ objectDelete)

end Locks

/-- The objects that are freed when their last reference is dropped, one
after the other: connections, and workers with what is in their queues. -/
inductive Freed where
  | done
  | connection (s : TsAddr) (next : Freed)
  /-- `pmmpthread_worker_data_free` comes first. -/
  | worker (s : TsAddr) (queued next : Freed)

def Freed.locks : Freed → List (LockOp Lock)
  | .done => []
  | .connection s next => Locks.baseFree s ++ next.locks
  | .worker s queued next =>
      Locks.guarded (.monitor s) queued.locks ++ Locks.baseFree s
        ++ next.locks

/-- A cached value as a sync comes to it: whether it is compared with the
foreign object that is stored, and what is freed if it is dropped. -/
structure Synced where
  checked : Bool
  freed : Freed

namespace Locks

/-- `pmmpthread_connect`. -/
def connect : List (LockOp Lock) := guarded .globals []

/-- `pmmpthread_globals_add_interned_string`, which looks the string up
first. -/
def addInternedString : List (LockOp Lock) :=
  guarded .globals (guarded .globals [])

/-- `pmmpthread_object_connect`; `creates` when there is no connection
yet. -/
def objectConnect (creates : Bool) : List (LockOp Lock) :=
  guarded .globals
    (objectValid ++ if creates then objectAlloc ++ connect else [])

/-- `pmmpthread_store_sync_local_properties`, called with the monitor
held. -/
def syncLocalProperties (cached : List Synced) : List (LockOp Lock) :=
  cached.flatMap fun c =>
    (if c.checked then objectValid else []) ++ c.freed.locks

/-- `pmmpthread_store_read`: a sync, and the connections that the
restored value needs. -/
def storeRead (s : TsAddr) (cached : List Synced) (connects : List Bool) :
    List (LockOp Lock) :=
  guarded (.monitor s)
    (syncLocalProperties cached ++ (connects.map objectConnect).flatten)

/-- `pmmpthread_store_write`. -/
def storeWrite (s : TsAddr) (cached : List Synced) : List (LockOp Lock) :=
  guarded (.monitor s) (syncLocalProperties cached)

/-- A create handler and `pmmpthread_base_ctor` of an object with
`defaults` defaults. -/
def construct (s : TsAddr) (defaults : Nat) : List (LockOp Lock) :=
  objectAlloc
    ++ (List.replicate defaults
      (addInternedString ++ storeWrite s [])).flatten

end Locks

/-- What a thread does. `synchronized` is `ThreadSafe::synchronized`: the
monitor is held for a sync and for the body. -/
inductive Activity where
  | done
  | read (s : TsAddr) (cached : List Synced) (connects : List Bool)
      (next : Activity)
  | write (s : TsAddr) (cached : List Synced) (next : Activity)
  | sync (s : TsAddr) (cached : List Synced) (next : Activity)
  | construct (s : TsAddr) (defaults : Nat) (next : Activity)
  | connect (creates : Bool) (next : Activity)
  | free (s : TsAddr) (next : Activity)
  | synchronized (s : TsAddr) (cached : List Synced) (body next : Activity)

/-- The lock operations of an activity. -/
def Activity.locks : Activity → List (LockOp Lock)
  | .done => []
  | .read s cached connects next =>
      Locks.storeRead s cached connects ++ next.locks
  | .write s cached next => Locks.storeWrite s cached ++ next.locks
  | .sync s cached next =>
      Locks.guarded (.monitor s) (Locks.syncLocalProperties cached)
        ++ next.locks
  | .construct s defaults next => Locks.construct s defaults ++ next.locks
  | .connect creates next => Locks.objectConnect creates ++ next.locks
  | .free s next => Locks.baseFree s ++ next.locks
  | .synchronized s cached body next =>
      Locks.guarded (.monitor s)
        (Locks.syncLocalProperties cached ++ body.locks) ++ next.locks

/-- All threads before their first lock operation. -/
def startAll (acts : ThreadId → Activity) : Sched ThreadId Lock where
  code t := (acts t).locks
  owner _ := none

end PmmpThread.Model
