/-
Reading a ThreadSafeArray back as an array: each entry is read by its key,
in the order of the table, and an object that was made since is one of the
ThreadSafeArrays that arrays became, and is read back too. Any other object
is a value of its own.
-/
import PmmpThread.Model.Merge

namespace PmmpThread.Model.World

open Zend

/-- `pmmpthread_store_read` with what it does after the unlock; `none`
where there is no value. -/
def readMember (E : Engine) (w : World) (c : Addr) (k : Key) :
    Option (Zval × World) :=
  match w.readLocked E c k .r with
  | (.cached v, w') => some (v, w')
  | (.restored v, w') => some (v, w'.updateLocalProperty c k v)
  | _ => none

/-- The object is not older than the identity `since`. -/
def madeSince (w : World) (since : Nat) (a : Addr) : Bool :=
  (w.birthOf a).any fun b => decide (since ≤ b)

/-- What a value that was read stands for; `recurse` reads an object
back. -/
def readElement (since : Nat)
    (recurse : World → Addr → Option (List (Key × Php) × World)) (w : World) :
    Zval → Option (Php × World)
  | .object l =>
      if w.madeSince since l then
        (recurse w l).map fun r => (.array r.1, r.2)
      else some (.leaf (.object l), w)
  | v => some (.leaf v, w)

/-- The entries under `ks`, read one after the other. -/
def readEntries (E : Engine) (element : World → Zval → Option (Php × World))
    (c : Addr) : List Key → World → Option (List (Key × Php) × World)
  | [], w => some ([], w)
  | k :: ks, w =>
      (w.readMember E c k).bind fun r =>
        (element r.2 r.1).bind fun p =>
          (readEntries E element c ks p.2).map fun rs =>
            ((k, p.1) :: rs.1, rs.2)

/-- The array that the ThreadSafeArray at `c` stands for; `fuel` bounds
the nesting. -/
def readBack (E : Engine) (since : Nat) :
    Nat → World → Addr → Option (List (Key × Php) × World)
  | 0, _, _ => none
  | fuel + 1, w, c =>
      (w.conn c).bind fun x =>
        readEntries E (readElement since (readBack E since fuel)) c
          (x.o.props.hash.entries.map Prod.fst) w

-- ============================================================= the same

/-- `v'` in `u` is what `v` is in `w`: the same bytes, the same object,
else the same value. -/
def SameLeaf (w u : World) : Zval → Zval → Prop
  | .string p, v' => ∃ s p' s', w.strings.get p = some s ∧ v' = .string p'
      ∧ u.strings.get p' = some s' ∧ s'.bytes = s.bytes
  | .object a, v' => ∃ b l, w.birthOf a = some b ∧ v' = .object l
      ∧ u.birthOf l = some b
  | v, v' => v' = v

mutual
/-- Arrays have the same keys in the same order, at every depth, and the
same leaves. -/
def SameRead (w u : World) : Php → Php → Prop
  | .leaf v, r => ∃ v', r = .leaf v' ∧ SameLeaf w u v v'
  | .array es, r => ∃ rs, r = .array rs ∧ SameReadAll w u es rs

def SameReadAll (w u : World) :
    List (Key × Php) → List (Key × Php) → Prop
  | [], rs => rs = []
  | (k, v) :: es, rs => ∃ r rest, rs = (k, r) :: rest
      ∧ SameRead w u v r ∧ SameReadAll w u es rest
end

/-- A leaf of a kind that can be stored; closures and sockets are left
out. -/
def plainLeaf : Zval → Bool
  | .null | .bool _ | .long _ | .double _ | .interned _ | .string _
  | .enumCase _ _ | .object _ => true
  | _ => false

/-- Thread `t` has the enum case, or can connect to the object. -/
def resolves (E : Engine) (w : World) (t : ThreadId) : Zval → Bool
  | .enumCase cls name => E.enumResolves t cls name
  | .object a => w.connectable E t a
  | _ => true

/-- `fromArray` of `es` on thread `t` succeeds, and thread `t'` connects
to the result and reads `es` back. -/
def FromArrayFaithful (E : Engine) (w : World) (t : ThreadId)
    (es : List (Key × Php)) (t' : ThreadId) : Prop :=
  ∃ a o, w.fromArray E t es = some (a, o) ∧ o.raised = false
    ∧ ∃ l w₁, o.world.objectConnect E t' a = (.ok l, w₁)
      ∧ ∃ fuel rs u, readBack E w.births fuel w₁ l = some (rs, u)
        ∧ SameReadAll w u es rs

end PmmpThread.Model.World
