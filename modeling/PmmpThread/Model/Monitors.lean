/-
The operations that hold one monitor while they take another:
`pmmpthread_store_merge` between two ThreadSafeArrays and
`pmmpthread_store_full_sync_local_properties`.

# The tree of a full sync

A full sync holds the monitor of an object while it goes into the objects
it finds there, and that of a worker while it goes through the tasks the
worker has done. What it finds decides which monitors it takes, and in
which order. Other threads may change that from one visit of an object to
the next, so a full sync is the tree of its visits (`SyncTree`): a graph
in which objects are shared or refer back to each other gives such a tree,
cut where the recursion guard (`GC_IS_RECURSIVE`) returns, and every graph
gives one.

# What is freed

Where a sync drops a cached value, or a merge the one that it has
overwritten, that may be the last reference to a connection:
`pmmpthread_base_free` then takes the globals lock and a monitor with the
monitors held (`Freed`).

# What is left out

As in `Model/Locks.lean`, everything but the locks.
-/
import PmmpThread.Model.Locks

namespace PmmpThread.Model

open Pthread

/-- The visits of a full sync, in the order in which they are made. `C` is
what there is to say about a sync, `R` about a value that is restored. -/
inductive SyncTree (C R : Type) where
  | done
  /-- An object: `pmmpthread_store_sync_local_properties`, and what is in
  its table. -/
  | object (s : TsAddr) (cached : C) (inside next : SyncTree C R)
  /-- A storage that was not in the local table. -/
  | restore (r : R) (next : SyncTree C R)
  /-- `pmmpthread_worker_sync_collectable_tasks`, at the end of the visit of
  a worker. -/
  | collectable (worker : TsAddr) (tasks next : SyncTree C R)
  /-- One of these tasks, with its monitor held around its full sync. -/
  | task (s : TsAddr) (inside next : SyncTree C R)

/-- The code of a full sync; `guard` is code with a monitor held. -/
def SyncTree.code {C R A : Type} (guard : TsAddr → List A → List A)
    (sync : C → List A) (restored : R → List A) : SyncTree C R → List A
  | .done => []
  | .object s cached inside next =>
      guard s (sync cached ++ inside.code guard sync restored)
        ++ next.code guard sync restored
  | .restore r next => restored r ++ next.code guard sync restored
  | .collectable worker tasks next =>
      guard worker (tasks.code guard sync restored)
        ++ next.code guard sync restored
  | .task s inside next =>
      guard s (inside.code guard sync restored)
        ++ next.code guard sync restored

namespace Locks

/-- `pmmpthread_store_merge` between two ThreadSafeArrays; `freed` goes with
the cached values that it drops. -/
def storeMerge (destination source : TsAddr) (freed : Freed) :
    List (LockOp Lock) :=
  guarded (.monitor destination) (guarded (.monitor source) freed.locks)

/-- `pmmpthread_store_full_sync_local_properties`; a restored storage is a
list of connections. -/
def fullSyncLocalProperties (tree : SyncTree (List Synced) (List Bool)) :
    List (LockOp Lock) :=
  tree.code (fun s => guarded (.monitor s)) syncLocalProperties
    fun connects => (connects.map objectConnect).flatten

end Locks

inductive MonitorOp where
  | merge (destination source : TsAddr) (freed : Freed)
  | fullSync (tree : SyncTree (List Synced) (List Bool))

def MonitorOp.locks : MonitorOp → List (LockOp Lock)
  | .merge destination source freed =>
      Locks.storeMerge destination source freed
  | .fullSync tree => Locks.fullSyncLocalProperties tree

end PmmpThread.Model
