/-
The keys of a ThreadSafeArray: how `pmmpthread_store_coerce` turns a PHP
value into a member of the table, how the iteration helpers at the end of
src/store.c read the table back, and the iterator of src/object.c over a
store that goes on changing under it.

The string form of a float is the engine's (`zend_double_to_str`, which
depends on the ini setting `precision`); it is a parameter of everything
that coerces a key.

# The local table

`pmmpthread_store_data` goes through `pmmpthread_store_read`, which looks
for the member in the local table of the connection first. What it finds
there once the table is in sync is a function of the key here (`Cached`);
`Model/Ops.lean` has the local table itself.
-/
import PmmpThread.Model.Store

namespace PmmpThread.Model

open Zend

-- ======================================================== numeric keys

/-- `'0'` to `'9'`. -/
def isDigit (c : UInt8) : Bool := 48 ≤ c && c ≤ 57

/-- The number that a string of digits spells. -/
def digitsValue (digits : List UInt8) : Nat :=
  digits.foldl (fun idx c => idx * 10 + (c.toNat - 48)) 0

/-- `ZEND_HANDLE_NUMERIC_STR`: the integer key that a string stands for.
No leading zeros, no sign but a minus, and within `zend_long`; 19 is
`MAX_LENGTH_OF_LONG - 1`. -/
def handleNumericStr (key : List UInt8) : Option Int :=
  let negative := key.head? == some 45
  let digits := if negative then key.tail else key
  if digits.isEmpty || !digits.all isDigit
      || (digits.head? == some 48 && key.length > 1)
      || digits.length > 19 then none
  else if negative then
    if (digitsValue digits : Int) - 1 > longMax then none
    else some (-(digitsValue digits))
  else if (digitsValue digits : Int) > longMax then none
  else some (digitsValue digits)

/-- `pmmpthread_store_coerce` of a string. -/
def coerceString (bytes : List UInt8) : Key :=
  match handleNumericStr bytes with
  | some h => .long h
  | none => .str bytes

/-- `zend_long_to_str`. -/
def longToStr (h : Int) : List UInt8 :=
  let digits := (Nat.toDigits 10 h.natAbs).map fun c => c.toNat.toUInt8
  if h < 0 then 45 :: digits else digits

/-- A PHP value used as a key. An array, a resource or an object is
`other`, with what `zval_get_string` makes of it. -/
inductive KeyZval where
  | null
  | bool (b : Bool)
  | long (h : Int)
  | double (d : Float)
  | string (bytes : List UInt8)
  | reference (z : KeyZval)
  | other (bytes : List UInt8)

namespace KeyZval

/-- `zend_hash_get_current_key_zval_ex`: a key of the table as a value. -/
def ofKey : Key → KeyZval
  | .long h => .long h
  | .str bytes => .string bytes

variable (dtoa : Float → List UInt8)

/-- `zval_get_string`. -/
def getString : KeyZval → List UInt8
  | .null | .bool false => []
  | .bool true => [49]
  | .long h => longToStr h
  | .double d => dtoa d
  | .string bytes | .other bytes => bytes
  | .reference z => z.getString

/-- `pmmpthread_store_coerce`. What is neither a string nor an integer
goes through `zval_get_string`, and not through the test for numeric
strings; so does a reference to a string or to an integer. -/
def coerce : KeyZval → Key
  | .string bytes => coerceString bytes
  | .long h => .long h
  | z => .str (z.getString dtoa)

end KeyZval

-- =========================================================== iteration

/-- What the local table of a connection answers once it is in sync: for
each key the valid cache item, if there is one. -/
abbrev Cached (V : Type) := Key → Option V

namespace Store

variable {V : Type} (dtoa : Float → List UInt8) (retain : V → Bool)

/-- The value of `pmmpthread_store_read` for `BP_VAR_R`; `none` is
`IS_UNDEF`. -/
def read (s : Store V) (cached : Cached V) (k : Key) : Option V :=
  (cached k).or (s.hash.find k)

/-- The `pmmpthread_store_update_local_property` at the end of that read;
`retain` is `pmmpthread_store_retain_in_local_cache`. -/
def remember (s : Store V) (cached : Cached V) (k : Key) : Cached V :=
  match s.read cached k with
  | some v => if retain v then Function.update cached k (some v) else cached
  | none => cached

/-- `pmmpthread_store_key`; `none` is the `NULL` of a position without an
entry. -/
def key (s : Store V) (position : Option Nat) : Option Key :=
  position.bind fun p => (s.hash.getCurrent p).map Prod.fst

/-- The member that `pmmpthread_store_data` reads: a position without an
entry has the key null. -/
def dataMember (s : Store V) (position : Option Nat) : Key :=
  ((s.key position).elim .null KeyZval.ofKey).coerce dtoa

/-- `pmmpthread_store_data`. -/
def data (s : Store V) (cached : Cached V) (position : Option Nat) :
    Option V × Cached V :=
  let member := s.dataMember dtoa position
  (s.read cached member, s.remember retain cached member)

/-- `pmmpthread_store_forward`. -/
def forward (s : Store V) (position : Option Nat) : Option Nat :=
  position.bind fun p =>
    let p := (s.hash.moveForward p).getD p
    if s.hash.hasMoreElements p then some p else none

/-- The rounds of a `foreach` from a position on, at most `n`. -/
def iterateFrom (s : Store V) : Nat → Cached V → Option Nat →
    List (Option Key × Option V)
  | _, _, none => []
  | 0, _, some _ => []
  | n + 1, cached, some p =>
      let d := s.data dtoa retain cached (some p)
      (s.key (some p), d.1) :: s.iterateFrom n d.2 (s.forward (some p))

/-- A call on a ThreadSafeArray: `pmmpthread_write_dimension`, where no
key is an append, or the rewind of an iterator. -/
inductive Call (V : Type) where
  | writeDimension (member : Option KeyZval) (v : V) (compact : Bool)
  | rewind

/-- What a call does to the table. -/
def Call.op : Call V → Op V
  | .writeDimension (some k) v compact => .write (k.coerce dtoa) v compact
  | .writeDimension none v compact => .append v compact
  | .rewind => .reset

end Store

-- ======================================================== the iterator

/-- A store, the `position` of one iterator over it and the local table of
the connection it goes through. The position is a slot number of the
shared table; it becomes `HT_INVALID_IDX` only when the iterator itself is
moved past the last entry. -/
structure Iteration (V : Type) where
  store : Store V
  cached : Cached V
  position : Option Nat

namespace Iteration

variable {V : Type} (dtoa : Float → List UInt8) (retain : V → Bool)

/-- `pmmpthread_object_iterator_rewind`. -/
def rewind (i : Iteration V) : Iteration V :=
  { i with store := i.store.reset.2, position := i.store.reset.1 }

/-- `pmmpthread_object_iterator_create`. -/
def create (s : Store V) (cached : Cached V) : Iteration V :=
  rewind ⟨s, cached, none⟩

/-- `pmmpthread_object_iterator_validate`. -/
def validate (i : Iteration V) : Bool := i.position.isSome

/-- `pmmpthread_object_iterator_move_forward`. -/
def moveForward (i : Iteration V) : Iteration V :=
  { i with position := i.store.forward i.position }

/-- `pmmpthread_object_iterator_current_key`; `none` is `NULL`. -/
def currentKey (i : Iteration V) : Option Key := i.store.key i.position

/-- `pmmpthread_object_iterator_current_data`; `none` is the
`uninitialized_zval`. -/
def currentData (i : Iteration V) : Option V × Iteration V :=
  let d := i.store.data dtoa retain i.cached i.position
  (d.1, { i with cached := d.2 })

/-- A call of the iterator, or one call on the store by any thread. A
`mutate` leaves `cached` in the local table of the iterator's
connection. -/
inductive Step (V : Type) where
  | rewind
  | moveForward
  | currentData
  | mutate (op : Store.Op V) (cached : Cached V)

def step (i : Iteration V) : Step V → Iteration V
  | .rewind => i.rewind
  | .moveForward => i.moveForward
  | .currentData => (i.currentData dtoa retain).2
  | .mutate op cached => { i with store := i.store.apply op, cached }

def run (i : Iteration V) (steps : List (Step V)) : Iteration V :=
  steps.foldl (step dtoa retain) i

end Iteration

end PmmpThread.Model
