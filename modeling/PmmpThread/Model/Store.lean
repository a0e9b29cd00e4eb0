/-
`pmmpthread_store_t` (src/store.h): the shared property table of a
ThreadSafe object, with its modification count and the two cached slot
positions `first` and `last`.

Every function here is the table half of a `pmmpthread_store_*`
function of src/store.c: what it does to the hash table and to the
cached positions while it holds the monitor. Values are opaque, so the
store is generic in them; conversion between values and storages, the
local property tables and the modification count are added in
`Model/Ops.lean`, which calls these functions.

`HT_INVALID_IDX` is `none`: a real position is below `HT_MAX_SIZE`,
which is below it. Keys are the canonical members that
`pmmpthread_store_coerce` hands to the table.
-/
import PmmpThread.Zend.Hash

namespace PmmpThread.Model

open Zend

/-- `pmmpthread_store_t`. -/
structure Store (V : Type) where
  hash : HashTable V
  modcount : Int
  first : Option Nat
  last : Option Nat

namespace Store

variable {V : Type}

/-- `pmmpthread_store_init`. -/
def init : Store V where
  hash := .init 8
  modcount := 0
  first := none
  last := none

/-- `pmmpthread_store_invalidate_bounds`. -/
def invalidateBounds (s : Store V) : Store V :=
  { s with first := none, last := none }

/-- The member a write goes to: the key given, or the next free
element of an append. -/
def member (s : Store V) (key : Option Key) : Key :=
  key.getD s.hash.nextKey

/-- The guard of `pmmpthread_store_write` against "a table rehash may
have occurred". `zend_hash_get_current_data_ex` skips tombstones, so
the probe at 0 sees any live entry. -/
def guardRehash (s : Store V) : Store V :=
  if s.first ≠ none ∧ s.first ≠ some 0 ∧ (s.hash.getCurrent 0).isSome then
    s.invalidateBounds
  else s

/-- The bounds after a write: an arbitrary key drops them, an append
moves `last` on to the new item. A failed move is `ZEND_ASSERT(0)`,
which a release build drops. -/
def moveBounds (s : Store V) (key : Option Key) : Store V :=
  match key, s.last with
  | some _, _ => s.invalidateBounds
  | none, some l => { s with last := some ((s.hash.moveForward l).getD l) }
  | none, none => s

/-- The table half of `pmmpthread_store_write`; `key` is `none` for an
append. -/
def write (s : Store V) (key : Option Key) (v : V) (compact : Bool) :
    Store V :=
  ({ s with hash := s.hash.update compact (s.member key) v
    }.guardRehash).moveBounds key

/-- The table half of `pmmpthread_store_delete`. -/
def delete (s : Store V) (k : Key) : Store V :=
  { s with hash := s.hash.del k }.invalidateBounds

/-- Where `pmmpthread_store_shift` and `pmmpthread_store_chunk` start. -/
def firstPos (s : Store V) : Nat :=
  s.first.getD s.hash.internalPointerReset

/-- What `pmmpthread_store_shift` and the loop of
`pmmpthread_store_chunk` do to the bounds before they delete the entry
at `position`, and the position they go on from. -/
def advanceFirst (s : Store V) (position : Nat) : Nat × Store V :=
  if s.hash.numElements = 1 then (position, s.invalidateBounds)
  else ((s.hash.moveForward position).getD position,
    { s with first := some ((s.hash.moveForward position).getD position) })

/-- The table half of `pmmpthread_store_shift`. -/
def shift (s : Store V) : Option (Key × V) × Store V :=
  match s.hash.getCurrent s.firstPos with
  | some e =>
      (some e, { (s.advanceFirst s.firstPos).2 with hash := s.hash.del e.1 })
  | none => (none, s)

/-- The loop of `pmmpthread_store_chunk`, for `n` more entries: keys are
distinct, so the chunk grows by one entry in every round. -/
def chunkLoop : Nat → Nat → Store V → List (Key × V) × Store V
  | 0, _, s => ([], s)
  | n + 1, position, s =>
      match s.hash.getCurrent position with
      | some e =>
          let rest := chunkLoop n (s.advanceFirst position).1
            { (s.advanceFirst position).2 with hash := s.hash.del e.1 }
          (e :: rest.1, rest.2)
      | none => ([], s)

/-- The table half of `pmmpthread_store_chunk`. -/
def chunk (s : Store V) (size : Int) : List (Key × V) × Store V :=
  chunkLoop size.toNat s.firstPos s

/-- Where `pmmpthread_store_pop` starts. -/
def lastPos (s : Store V) : Nat :=
  s.last.getD s.hash.internalPointerEnd

/-- The bounds of `pmmpthread_store_pop` before it deletes the entry at
`position`. -/
def retreatLast (s : Store V) (position : Nat) : Store V :=
  if s.hash.numElements = 1 then s.invalidateBounds
  else { s with last := some ((s.hash.moveBackwards position).getD position) }

/-- The table half of `pmmpthread_store_pop`. -/
def pop (s : Store V) : Option (Key × V) × Store V :=
  match s.hash.getCurrent s.lastPos with
  | some e => (some e, { s.retreatLast s.lastPos with hash := s.hash.del e.1 })
  | none => (none, s)

/-- `pmmpthread_store_reset`: the iterator position it yields. -/
def reset (s : Store V) : Option Nat × Store V :=
  match s.first with
  | none =>
      if s.hash.hasMoreElements s.hash.internalPointerReset then
        (some s.hash.internalPointerReset,
          { s with first := some s.hash.internalPointerReset })
      else (none, s)
  | some f => (some f, s)

/-- One round of the storage-copying loop of `pmmpthread_store_merge`. -/
def mergeEntry (overwrite : Bool) (compact : Key → Bool) (h : HashTable V)
    (e : Key × V) : HashTable V :=
  if !overwrite && h.contains e.1 then h else h.update (compact e.1) e.1 e.2

/-- The table half of `pmmpthread_store_merge` from another
ThreadSafeArray with entries `src`. Merging a plain array is a
sequence of keyed `write`s. -/
def merge (s : Store V) (src : List (Key × V)) (overwrite : Bool)
    (compact : Key → Bool) : Store V :=
  { s with hash := src.foldl (mergeEntry overwrite compact) s.hash
    }.invalidateBounds

-- ================================================ sequences of calls

/-- One call on a store. -/
inductive Op (V : Type) where
  | write (k : Key) (v : V) (compact : Bool)
  | append (v : V) (compact : Bool)
  | delete (k : Key)
  | shift
  | pop
  | chunk (size : Int)
  | merge (src : List (Key × V)) (overwrite : Bool) (compact : Key → Bool)
  | reset

/-- The store a call leaves behind. -/
def apply (s : Store V) : Op V → Store V
  | .write k v compact => s.write (some k) v compact
  | .append v compact => s.write none v compact
  | .delete k => s.delete k
  | .shift => s.shift.2
  | .pop => s.pop.2
  | .chunk size => (s.chunk size).2
  | .merge src overwrite compact => s.merge src overwrite compact
  | .reset => s.reset.2

/-- The store after a sequence of calls. -/
def run (s : Store V) (ops : List (Op V)) : Store V := ops.foldl apply s

@[simp] theorem run_nil (s : Store V) : s.run [] = s := rfl

@[simp] theorem run_cons (s : Store V) (op : Op V) (ops : List (Op V)) :
    s.run (op :: ops) = (s.apply op).run ops := rfl

end Store

end PmmpThread.Model
