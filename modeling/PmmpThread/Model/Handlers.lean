/-
What handlers ask of an object (src/handlers.c): whether a member is set
(`pmmpthread_store_isset`), comparison, the table for `var_dump`, and the
properties table that casts and `foreach` read. The last two are
`pmmpthread_store_tohash` into a table of the caller and into the object's
own table.

# isset

`pmmpthread_store_isset` looks at the storage and restores nothing, so it
has rules of its own for every kind of storage. A string is compared by
its length and its first byte. Neither a persistent string nor a string
pointer is copied.
-/
import PmmpThread.Model.Step

namespace PmmpThread.Model

open Zend

-- ================================================================= isset

/-- `has_set_exists`: `ZEND_PROPERTY_ISSET`, `_NOT_EMPTY`, `_EXISTS`. -/
inductive HasSetExists where
  | isset
  | notEmpty
  | exists
  deriving DecidableEq, Repr

/-- `d == 0.0`: all bits but the sign are 0. -/
def doubleIsZero (bits : UInt64) : Bool :=
  bits &&& 0x7fffffffffffffff == 0

/-- The test of `pmmpthread_store_isset` on a string. -/
def issetString (b : Bytes) : Bool := !(b.isEmpty || b.head? == some 48)

/-- `zend_is_true` of a string: it is neither "" nor "0". -/
def stringIsTrue (b : Bytes) : Bool := !(b.isEmpty || b == [48])

namespace World

/-- The bytes of a string storage; `none` for a freed string. -/
def storedBytes (w : World) : Storage → Option Bytes
  | .string _ b => some b
  | .stringPtr _ p _ => (w.strings.get p).map Str.bytes
  | _ => none

/-- The switch under `ZEND_PROPERTY_NOT_EMPTY`; `none` reads a freed
string. -/
def issetNotEmpty (w : World) : Storage → Option Bool
  | .null | .bool false => some false
  | .long n => some (n != 0)
  | .double d => some (!doubleIsZero d)
  | .string _ b => some (issetString b)
  | .stringPtr owner p b =>
      (w.storedBytes (.stringPtr owner p b)).map issetString
  | _ => some true

/-- `pmmpthread_store_isset` on a storage that was found. -/
def issetStorage (w : World) (st : Storage) : HasSetExists → Option Bool
  | .notEmpty => w.issetNotEmpty st
  | .isset => some (st != .null)
  | .exists => some true

/-- `pmmpthread_store_isset`; `none` is a fault. -/
def storeIsset (w : World) (c : Addr) (k : Key) (mode : HasSetExists) :
    Option Bool :=
  (w.conn c).bind fun x =>
    match x.o.props.hash.find k with
    | some st => w.issetStorage st mode
    | none => some false

/-- `zend_is_true`. An object of any class is true. -/
def isTrue (w : World) : Zval → Bool
  | .undef | .null | .bool false | .indirect => false
  | .long n => n != 0
  | .double d => !doubleIsZero d
  | .interned b => stringIsTrue b
  | .string p => (w.strings.get p).any fun s => stringIsTrue s.bytes
  | _ => true

/-- The value that `pmmpthread_store_read` leaves in the caller's zval, in
the world after it; nothing if there is no such member. -/
def readValue (E : Engine) (w : World) (c : Addr) (k : Key) :
    Option (Zval × World) :=
  match w.readLocked E c k .r with
  | (.cached v, u) | (.restored v, u) => some (v, u)
  | (.threw, u) => some (.null, u)
  | _ => none

-- ========================================================= whole objects

end World

end PmmpThread.Model
