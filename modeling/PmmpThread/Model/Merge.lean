/-
`pmmpthread_store_write` with its coercion of arrays, and
`pmmpthread_store_merge` from all it takes.

The two call each other: an array is written as a new ThreadSafeArray
into which it is merged, and a merge writes its source's entries one
after the other. What goes wrong inside the nested merge is in the
pending exception only; the write around it does not look.

# Sources

The loop over a plain source reads the keys of the source's table as
they are. An array has canonical keys. The names of an object's
properties are strings, and may be numeric; the elements of its table
may be indirect.

The destination's monitor is held throughout, so no other thread comes
in between. Values that die inside are not destroyed on the spot.
-/
import PmmpThread.Model.Keys
import PmmpThread.Model.Ops
import PmmpThread.Model.Step

namespace PmmpThread.Model

open Zend

/-- A value as it is given to a write: an array, or anything else. -/
inductive Php where
  | leaf (v : Zval)
  | array (entries : List (Key × Php))

/-- An element of an object's property table. -/
inductive Slot where
  | direct (v : Php)
  | indirect (v : Php)

/-- What an element stands for. -/
def Slot.deref : Slot → Php
  | .direct v | .indirect v => v

namespace Php

mutual
/-- All leaves satisfy `p`. -/
def all (p : Zval → Bool) : Php → Bool
  | .leaf v => p v
  | .array es => allEntries p es

def allEntries (p : Zval → Bool) : List (Key × Php) → Bool
  | [] => true
  | (_, v) :: es => v.all p && allEntries p es
end

end Php

/-- `pmmpthread_store_coerce` of a key of a table. -/
def coerceKey : Key → Key
  | .long h => .long h
  | .str bytes => coerceString bytes

/-- The keys of an array: each stands for itself, and none comes twice. -/
def CanonicalKeys (ks : List Key) : Prop :=
  (∀ k ∈ ks, coerceKey k = k) ∧ ks.Nodup

instance (ks : List Key) : Decidable (CanonicalKeys ks) :=
  inferInstanceAs (Decidable (_ ∧ _))

namespace Php

mutual
/-- Every array in it has the keys of one. -/
def Sound : Php → Prop
  | .leaf _ => True
  | .array es => CanonicalKeys (es.map Prod.fst) ∧ SoundEntries es

def SoundEntries : List (Key × Php) → Prop
  | [] => True
  | (_, v) :: es => v.Sound ∧ SoundEntries es
end

end Php

/-- What a write or a merge leaves: whether it returns `SUCCESS`, whether
an exception is pending, and the world. -/
structure Ending where
  ok : Bool
  threw : Bool
  world : World

/-- The caller gets an exception: one is pending, or it throws its own for
the `FAILURE`. -/
def Ending.raised (o : Ending) : Bool := !o.ok || o.threw

namespace World

/-- `object_init_ex` of `pmmpthread_ce_array`, which declares no
properties. -/
def newArray (E : Engine) (w : World) (t : ThreadId) :
    Option (Addr × World) :=
  w.createObject E t [] .threaded []

/-- The test for a key in the destination's table. -/
def present (w : World) (c : Addr) (k : Key) : Bool :=
  (w.conn c).any fun x => x.o.props.hash.contains k

/-- The end of `pmmpthread_store_write`; `threw` is what is pending. -/
def writeMember (w : World) (c : Addr) (key : Option Key) (v : Zval)
    (threw : Bool) : Ending :=
  match w.write c (key.map coerceKey) v with
  | some w' => ⟨true, threw, w'⟩
  | none => ⟨false, threw, w⟩

mutual
/-- `pmmpthread_store_write` on thread `t`. A value that is refused is
reported by the result alone. -/
def storeWrite (E : Engine) (t : ThreadId) (coerceArray : Bool) :
    Php → World → Addr → Option Key → Option Ending
  | .leaf v, w, c, key => some (w.writeMember c key v false)
  | .array es, w, c, key =>
      if coerceArray then
        (w.newArray E t).bind fun r =>
          (mergeTable E t true true es r.2 r.1).map fun o =>
            o.world.writeMember c key (.object r.1) o.threw
      else some ⟨false, false, w⟩

/-- The loop of `pmmpthread_store_merge` over a property table. -/
def mergeTable (E : Engine) (t : ThreadId) (overwrite coerceArray : Bool) :
    List (Key × Php) → World → Addr → Option Ending
  | [], w, _ => some ⟨true, false, w⟩
  | (k, v) :: es, w, c =>
      if !overwrite && w.present c k then
        mergeTable E t overwrite coerceArray es w c
      else
        (storeWrite E t coerceArray v w c (some k)).bind fun o =>
          if o.raised then some ⟨false, true, o.world⟩
          else mergeTable E t overwrite coerceArray es o.world c
end

/-- What `pmmpthread_store_merge` is given. `slots` is what a ThreadSafe
object has in its `properties_table` for its declared properties: nothing
where `pmmpthread_base_ctor` constructed a ts_obj and moved the defaults
into the store, the defaults of the class where it connected to one. -/
inductive Source where
  | array (entries : List (Key × Php))
  | object (props : List (Key × Slot))
  | threadSafe (a : Addr) (slots : Key → Php)
  | threadSafeArray (a : Addr)
  | other

/-- A value of a ThreadSafe object's own property table, under the key
`k`. -/
def ownSlot (slots : Key → Php) (k : Key) : Zval → Slot
  | .indirect => .indirect (slots k)
  | v => .direct (.leaf v)

/-- The own property table of a ThreadSafe object. -/
def ownTable (w : World) (a : Addr) (slots : Key → Php) :
    List (Key × Slot) :=
  (((w.mem.get a).map fun z => z.loc.table.entries).getD []).map fun e =>
    (e.1, ownSlot slots e.1 e.2)

/-- The entries that the loop over a property table sees. -/
def deref (props : List (Key × Slot)) : List (Key × Php) :=
  props.map fun e => (e.1, e.2.deref)

/-- `pmmpthread_store_merge` on thread `t`. -/
def merge (E : Engine) (t : ThreadId) (w : World) (c : Addr)
    (overwrite coerceArray : Bool) : Source → Option Ending
  | .array es => mergeTable E t overwrite coerceArray es w c
  | .object props => mergeTable E t overwrite coerceArray (deref props) w c
  | .threadSafe a slots =>
      (w.storeTohash E a true).bind fun w =>
        mergeTable E t overwrite coerceArray (deref (w.ownTable a slots)) w c
  | .threadSafeArray a =>
      (w.storeMerge c a overwrite).map fun w => ⟨true, false, w⟩
  | .other => some ⟨false, false, w⟩

/-- `ThreadSafeArray::fromArray`: the new object, and how the merge
ended. -/
def fromArray (E : Engine) (t : ThreadId) (w : World)
    (es : List (Key × Php)) : Option (Addr × Ending) :=
  (w.newArray E t).bind fun r =>
    (r.2.merge E t r.1 true true (.array es)).map fun o => (r.1, o)

-- ====================================================== what is accepted

/-- `pmmpthread_store_save_zval` succeeds. -/
def savable (w : World) (t : ThreadId) (v : Zval) : Bool :=
  (w.saveZval t v).isSome

/-- The write does not return `FAILURE`. -/
def accepts (w : World) (t : ThreadId) (coerceArray : Bool) : Php → Bool
  | .leaf v => w.savable t v
  | .array _ => coerceArray

/-- The value can be stored, at every depth. -/
def storable (w : World) (t : ThreadId) (coerceArray : Bool) (v : Php) :
    Bool :=
  w.accepts t coerceArray v && v.all (w.savable t)

-- =========================================================== what is kept

mutual
/-- The storage keeps `v`, as written by thread `t`: a leaf as it is
saved, an array as a ThreadSafeArray with the same keys in the same order.
`own` are the ts_objs that may be used for these. -/
def StandsFor (w : World) (t : ThreadId) (own : TsAddr → Prop) :
    Php → Storage → Prop
  | .leaf v, st => w.saveZval t v = some st
  | .array es, st => ∃ a s o, st = .object a o.birth
      ∧ w.tsOf a = some s ∧ own s ∧ w.shared.get s = some o
      ∧ StandForAll w t own es o.props.hash.entries

def StandForAll (w : World) (t : ThreadId) (own : TsAddr → Prop) :
    List (Key × Php) → List (Key × Storage) → Prop
  | [], sts => sts = []
  | (k, v) :: es, sts => ∃ st rest, sts = (coerceKey k, st) :: rest
      ∧ StandsFor w t own v st ∧ StandForAll w t own es rest
end

end World

end PmmpThread.Model
