/-
The calls of the store and `pmmpthread_object_connect`, with all the ways
they can end.

# Shape

Each call is the list of what it does with the locks, where it throws and
where it raises a fatal error. What it finds (a cached value, a storage,
an object that is gone, a value that cannot be stored) is given with the
call: a call may find anything.

# Fatal errors

Those of src/ are raised in a copy (`Model/Copy.lean`). The engine may
raise one of its own while it works for the call with a lock held: the
memory limit, or user code (a destructor, an autoloader) that ends the
script. Where it may do so the call has a flag, or a storage `.engine`.
-/
import PmmpThread.Model.Copy
import PmmpThread.Model.Monitors

namespace PmmpThread.Model

open Zend.Bailout
open Copy (globalsLookup Found Closure copyClosure)

/-- A storage, as `pmmpthread_store_restore_zval` comes to it. -/
inductive Stored where
  /-- A scalar, a string or a socket. -/
  | plain
  | object (o : Found)
  | closure (c : Closure)
  /-- `present` if the enum is there and has the case. -/
  | enum (present : Bool)
  /-- Any, if the engine raises a fatal error of its own here. -/
  | engine

/-- A value, as `pmmpthread_store_save_zval` comes to it. -/
inductive Saved where
  | stored
  /-- A socket: `pmmpthread_globals_shared_socket_track`. -/
  | socket
  /-- A value that cannot be stored. -/
  | refused
  /-- A closure that cannot be stored. -/
  | threw

mutual
/-- What `pmmpthread_store_write` is given. -/
inductive Written where
  | value (v : Saved)
  /-- An array that is coerced to the new ThreadSafeArray `vol`. -/
  | array (vol : TsAddr) (elements : Elements)

/-- What `pmmpthread_store_merge` finds in an array or in the properties of
an object that is no ThreadSafeArray. -/
inductive Elements where
  | done
  /-- The destination has the key, and it is not overwritten. -/
  | skip (next : Elements)
  | write (checks : Nat) (engine : Bool) (w : Written) (next : Elements)
end

/-- What `pmmpthread_store_read` finds. -/
inductive ReadHit where
  | cached
  /-- An indirect modification of something that is no thread-safe
  object. -/
  | indirect
  | missing
  | stored (v : Stored)

namespace Calls

/-- Code with a monitor held. -/
def monitored (s : TsAddr) (code : List (Instr Lock)) : List (Instr Lock) :=
  guarded (.monitor s) code

/-- A fatal error of the engine. -/
def engineError (engine : Bool) : List (Instr Lock) :=
  if engine then [.fatal] else []

/-- `pmmpthread_store_sync_local_properties`. -/
def syncLocalProperties (checks : Nat) : List (Instr Lock) :=
  (List.replicate checks ()).flatMap fun _ => globalsLookup

/-- `pmmpthread_store_restore_zval`. -/
def restoreZval : Stored → List (Instr Lock)
  | .plain => []
  | .object .gone => Found.gone.code ++ [.throw]
  | .object o => o.code
  | .closure c => (copyClosure false c).1.code
  | .enum present => if present then [] else [.throw]
  | .engine => [.fatal]

/-- `pmmpthread_store_read`. -/
def storeRead (s : TsAddr) (checks : Nat) (found : ReadHit) :
    List (Instr Lock) :=
  monitored s (syncLocalProperties checks ++
    match found with
    | .cached | .missing => []
    | .indirect => [.throw]
    | .stored v => restoreZval v)

/-- `pmmpthread_store_save_zval`. -/
def saveZval : Saved → List (Instr Lock)
  | .stored | .refused => []
  | .socket => globalsLookup
  | .threw => [.throw]

end Calls

/-- Whether `pmmpthread_store_write` returns `FAILURE`. -/
def Written.fails : Written → Bool
  | .value .refused | .value .threw => true
  | _ => false

mutual
/-- Whether there is an exception after the write. -/
def Written.throws : Written → Bool
  | .value .threw => true
  | .value _ => false
  | .array _ elements => elements.throws

/-- Whether there is an exception after the merge: a write that fails
throws. -/
def Elements.throws : Elements → Bool
  | .done => false
  | .skip next => next.throws
  | .write _ _ w next => w.fails || w.throws || next.throws
end

mutual
/-- `pmmpthread_store_write` to `s`. -/
def Written.code (s : TsAddr) (checks : Nat) (engine : Bool) :
    Written → List (Instr Lock)
  | .value v =>
      Calls.saveZval v ++
        if Written.fails (.value v) then []
        else Calls.monitored s (Calls.engineError engine
          ++ Calls.syncLocalProperties checks)
  | .array vol elements =>
      globalsLookup ++ (Calls.monitored vol (elements.code vol)
        ++ Calls.monitored s (Calls.engineError engine
          ++ Calls.syncLocalProperties checks))

/-- The loop of `pmmpthread_store_merge`, which an exception ends. -/
def Elements.code (s : TsAddr) : Elements → List (Instr Lock)
  | .done => []
  | .skip next => next.code s
  | .write checks engine w next =>
      w.code s checks engine ++ ((if w.fails then [.throw] else [])
        ++ if w.fails || w.throws then [] else next.code s)
end

/-- A call, with what it finds. -/
inductive Call where
  | connect (o : Found)
  | read (s : TsAddr) (checks : Nat) (found : ReadHit)
  | write (s : TsAddr) (checks : Nat) (engine : Bool) (w : Written)
  /-- `none` if the table is empty. -/
  | shift (s : TsAddr) (v : Option Stored)
  | pop (s : TsAddr) (v : Option Stored)
  | chunk (s : TsAddr) (vs : List Stored)
  /-- The storages that are not in the local table. -/
  | tohash (s : TsAddr) (checks : Nat) (vs : List Stored)
  /-- From a ThreadSafeArray. -/
  | merge (destination source : TsAddr) (engine : Bool)
  /-- From an array or another object. -/
  | mergeValues (destination : TsAddr) (elements : Elements)
  | fullSync (s : TsAddr) (checks : Nat) (inside : SyncTree Nat Stored)

/-- What the call does. -/
def Call.code : Call → List (Instr Lock)
  | .connect o => o.code
  | .read s checks found => Calls.storeRead s checks found
  | .write s checks engine w => w.code s checks engine
  | .shift s v => Calls.monitored s (v.toList.flatMap Calls.restoreZval)
  | .pop s v => Calls.monitored s (v.toList.flatMap Calls.restoreZval)
  | .chunk s vs => Calls.monitored s (vs.flatMap Calls.restoreZval)
  | .tohash s checks vs =>
      Calls.monitored s (Calls.syncLocalProperties checks
        ++ vs.flatMap Calls.restoreZval)
  | .merge destination source engine =>
      Calls.monitored destination
        (Calls.monitored source (Calls.engineError engine))
  | .mergeValues destination elements =>
      Calls.monitored destination (elements.code destination)
  | .fullSync s checks inside =>
      (SyncTree.object s checks inside .done).code Calls.monitored
        Calls.syncLocalProperties Calls.restoreZval

/-- How the call of a thread that holds the locks as in `held` ends, and
how it holds them then. -/
def Call.ends (c : Call) (held : Lock → Nat) : Exit × (Lock → Nat) :=
  run c.code ⟨held, false⟩

-- ======================================================= what goes through

/-- Restoring the storage raises no fatal error. -/
def Stored.sound : Stored → Bool
  | .plain | .enum _ => true
  | .object o => o.sound
  | .closure c => (copyClosure false c).1.sound
  | .engine => false

def ReadHit.sound : ReadHit → Bool
  | .stored v => v.sound
  | .cached | .indirect | .missing => true

mutual
def Written.sound (engine : Bool) : Written → Bool
  | .value v => Written.fails (.value v) || !engine
  | .array _ elements => elements.sound && !engine

def Elements.sound : Elements → Bool
  | .done => true
  | .skip next => next.sound
  | .write _ engine w next =>
      w.sound engine && (w.fails || w.throws || next.sound)
end

def SyncTree.sound : SyncTree Nat Stored → Bool
  | .done => true
  | .restore v next => v.sound && next.sound
  | .object _ _ inside next | .collectable _ inside next
  | .task _ inside next => inside.sound && next.sound

/-- Everything the call has to copy can be copied, and the engine raises no
fatal error of its own. -/
def Call.sound : Call → Bool
  | .connect o => o.sound
  | .read _ _ found => found.sound
  | .write _ _ engine w => w.sound engine
  | .shift _ v | .pop _ v => v.toList.all Stored.sound
  | .chunk _ vs | .tohash _ _ vs => vs.all Stored.sound
  | .merge _ _ engine => !engine
  | .mergeValues _ elements => elements.sound
  | .fullSync _ _ inside => inside.sound

end PmmpThread.Model
