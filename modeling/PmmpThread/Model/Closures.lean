/-
The bound variables of a closure: `pmmpthread_closure_thread_safe`, which
decides whether a closure may be stored, and `pmmpthread_copy_closure`
with what it calls to make the closure on another thread.

`Model/Ops.lean` has the same function on closures of which only the
ThreadSafe objects among the bound variables are left. Here are the whole
values.

# Values

A bound value may be an array, a closure with bound variables of its own,
or a reference, so that a value can contain itself. The values that the
thread has are `Originals`; the copies are new and contain nothing but
copies. The recursion of the source has no bound, `none` is a recursion
that has not ended within `fuel`, or a fault.

A table's keys are distinct, so an update of the new table is an append.

# What is left out

The classes that are prepared for the new closure, and the op_array's own
table of initial values, which is the bound one or has constants only.
The literals of a constant expression are scalars, strings and arrays of
these, which are all copied.

A fake closure has no table of its own, it uses its function's.
-/
import PmmpThread.Model.World
import PmmpThread.Zend.Parts

namespace PmmpThread.Model

open Zend

/-- The place of a zval that is referred to. -/
abbrev SlotPtr := Nat

/-- A zval as it can be bound. `pointer` is `IS_REFERENCE` or
`IS_INDIRECT`; `other` is a value that `pmmpthread_copy_zval` has no case
for, an object that is not thread-safe or a resource. -/
inductive Bound where
  | null
  | bool (b : Bool)
  | long (n : Int)
  | double (bits : UInt64)
  | string (bytes : Bytes)
  | array (entries : List (Key × Bound))
  | threadSafe (a : Addr)
  | closure (p : ClosurePtr)
  | enumCase (cls name : Bytes)
  | constantAst (ast : Nat)
  | pointer (p : SlotPtr)
  | other

/-- `this_ptr`: none, a ThreadSafe object, or another one. -/
inductive ThisPtr where
  | undef
  | threadSafe (a : Addr)
  | other
  deriving DecidableEq, Repr

/-- An instruction; `byRef` is `ZEND_BIND_REF` in the `extended_value` of
a `ZEND_BIND_STATIC`. -/
inductive Opline where
  | bindStatic (byRef : Bool)
  | other
  deriving DecidableEq, Repr

/-- `zend_closure`. `user` is `ZEND_USER_FUNCTION`, `fake` is
`ZEND_ACC_FAKE_CLOSURE`, `statics` the table behind
`static_variables_ptr`. -/
structure ZendClosure where
  thisPtr : ThisPtr
  user : Bool
  fake : Bool
  body : Nat
  opcodes : List Opline
  statics : Option (List (Key × Bound))

/-- The bound variables. -/
def ZendClosure.uses (cl : ZendClosure) : List (Key × Bound) :=
  if cl.user && !cl.fake then cl.statics.getD [] else []

/-- The closures of the thread, and the zvals that are referred to. -/
structure Originals where
  closures : List ZendClosure
  slots : List Bound

/-- A zval that was made by copying. `uninit` was not written. -/
inductive ZvalCopy where
  | uninit
  | null
  | bool (b : Bool)
  | long (n : Int)
  | double (bits : UInt64)
  | string (bytes : Bytes)
  | array (entries : List (Key × ZvalCopy))
  | object (l : Addr)
  | closure (body : Nat) (fake : Bool) (thisObj : Option Addr)
      (uses : List (Key × ZvalCopy))
  | enumCase (cls name : Bytes)
  | constantAst (ast : Nat)

namespace Originals

-- ============================================================== copying

/-- `pmmpthread_copy_zval` as its callers see it: the copy, or `FAILURE`,
and the world. -/
abbrev Copier := World → Bound → Option (Option ZvalCopy × World)

/-- The loop over a table; `failed` is what stands for a value that is not
copied. -/
def copyTable (failed : Key → List (Key × ZvalCopy)) (copy : Copier) :
    List (Key × Bound) → World → Option (List (Key × ZvalCopy) × World)
  | [], w => some ([], w)
  | (k, v) :: es, w =>
      (copy w v).bind fun r =>
        (copyTable failed copy es r.2).map fun rs =>
          ((match r.1 with
            | some c => [(k, c)]
            | none => failed k) ++ rs.1, rs.2)

/-- `pmmpthread_copy_hash`. -/
def copyHash : Copier → List (Key × Bound) → World →
    Option (List (Key × ZvalCopy) × World) :=
  copyTable fun _ => []

/-- `pmmpthread_copy_statics`. It looks through references before it
copies, as `pmmpthread_copy_zval` does itself. -/
def copyStatics : Copier → List (Key × Bound) → World →
    Option (List (Key × ZvalCopy) × World) :=
  copyTable fun k => [(k, .null)]

/-- `pmmpthread_copy_closure` after `$this` was connected. -/
def copyFunction (E : Engine) (t : ThreadId) (copy : Copier)
    (cl : ZendClosure) (thisObj : Option Addr) (w : World) :
    Option (Option ZvalCopy × World) :=
  if cl.fake then
    if E.functionKnown t cl.body then
      some (some (.closure cl.body true thisObj []), w)
    else some (none, w)
  else
    (copyStatics copy cl.uses w).map fun r =>
      (some (.closure cl.body false thisObj r.1), r.2)

/-- `pmmpthread_copy_closure` on thread `t`. -/
def copyClosure (E : Engine) (h : Originals) (t : ThreadId) (copy : Copier)
    (w : World) (p : ClosurePtr) : Option (Option ZvalCopy × World) :=
  match h.closures[p]? with
  | none => none
  | some cl =>
      match cl.thisPtr with
      | .threadSafe a =>
          match w.objectConnect E t a with
          | (.ok l, w') => copyFunction E t copy cl (some l) w'
          | (.gone, w') => some (none, w')
          | (.failed, w') => copyFunction E t copy cl none w'
          | (.fault, _) => none
      | _ => copyFunction E t copy cl none w

/-- `pmmpthread_copy_zval` on thread `t`. -/
def copyZval (E : Engine) (h : Originals) (t : ThreadId) : Nat → Copier
  | 0, _, _ => none
  | n + 1, w, v =>
      match v with
      | .pointer p => h.slots[p]?.bind (copyZval E h t n w)
      | .null => some (some .null, w)
      | .bool b => some (some (.bool b), w)
      | .long i => some (some (.long i), w)
      | .double d => some (some (.double d), w)
      | .string b => some (some (.string b), w)
      | .array es =>
          (copyHash (copyZval E h t n) es w).map fun r =>
            (some (.array r.1), r.2)
      | .threadSafe a =>
          -- whether there is something to connect to is not looked at
          match w.objectConnect E t a with
          | (.ok l, w') => some (some (.object l), w')
          | (.gone, w') => some (some .uninit, w')
          | (.failed, w') => some (some .null, w')
          | (.fault, _) => none
      | .closure p => h.copyClosure E t (copyZval E h t n) w p
      | .enumCase cls name =>
          some (if E.enumResolves t cls name then some (.enumCase cls name)
            else none, w)
      | .constantAst ast => some (some (.constantAst ast), w)
      | .other => some (none, w)

-- ============================================================= the same

/-- What is behind references. -/
inductive Derefs (h : Originals) : Bound → Bound → Prop
  | here (v : Bound) : Derefs h v v
  | through {p : SlotPtr} {u v : Bound} (hp : h.slots[p]? = some u)
      (hv : Derefs h u v) : Derefs h (.pointer p) v

/-- `l` in `w'` is the object that `a` is in `w`. -/
def SameObject (w w' : World) (a l : Addr) : Prop :=
  ∃ b, w.birthOf a = some b ∧ w'.birthOf l = some b

def SameThis (w w' : World) : ThisPtr → Option Addr → Prop
  | .undef, none => True
  | .threadSafe a, some l => SameObject w w' a l
  | _, _ => False

mutual
/-- The copy is, in `w'`, what the value is in `w`: arrays have the same
keys in the same order, closures the same code, `$this` and bound
variables. -/
def SameDirect (h : Originals) (w w' : World) : ZvalCopy → Bound → Prop
  | .null, v => v = .null
  | .bool b, v => v = .bool b
  | .long n, v => v = .long n
  | .double d, v => v = .double d
  | .string b, v => v = .string b
  | .array cs, v => ∃ es, v = .array es ∧ SameTable h w w' cs es
  | .object l, v => ∃ a, v = .threadSafe a ∧ SameObject w w' a l
  | .closure body fake thisObj cs, v => ∃ p cl, v = .closure p
      ∧ h.closures[p]? = some cl ∧ cl.body = body ∧ cl.fake = fake
      ∧ SameThis w w' cl.thisPtr thisObj ∧ SameTable h w w' cs cl.uses
  | .enumCase cls name, v => v = .enumCase cls name
  | .constantAst ast, v => v = .constantAst ast
  | .uninit, _ => False

def SameTable (h : Originals) (w w' : World) :
    List (Key × ZvalCopy) → List (Key × Bound) → Prop
  | [], es => es = []
  | (k, c) :: cs, es => ∃ v u rest, es = (k, v) :: rest ∧ Derefs h v u
      ∧ SameDirect h w w' c u ∧ SameTable h w w' cs rest
end

/-- The copy is what the value is, references looked through. -/
def SameAs (h : Originals) (w w' : World) (c : ZvalCopy) (v : Bound) : Prop :=
  ∃ u, Derefs h v u ∧ SameDirect h w w' c u

/-- `u` is directly in `v`. -/
inductive Part (h : Originals) : Bound → Bound → Prop
  | element {es : List (Key × Bound)} {e : Key × Bound} (he : e ∈ es) :
      Part h e.2 (.array es)
  | behind {p : SlotPtr} {u : Bound} (hp : h.slots[p]? = some u) :
      Part h u (.pointer p)
  | bound {p : ClosurePtr} {cl : ZendClosure} {e : Key × Bound}
      (hp : h.closures[p]? = some cl) (he : e ∈ cl.uses) :
      Part h e.2 (.closure p)

/-- The object is live, and thread `t` can connect to it. -/
def ObjectThere (E : Engine) (w : World) (t : ThreadId) (a : Addr) : Prop :=
  (w.birthOf a).isSome = true ∧ w.connectable E t a = true

/-- What does not depend on the parts: the value is of a kind that is
copied, and thread `t` has what it refers to. -/
def Known (E : Engine) (h : Originals) (w : World) (t : ThreadId) :
    Bound → Prop
  | .threadSafe a => ObjectThere E w t a
  | .closure p => ∃ cl, h.closures[p]? = some cl ∧ cl.thisPtr ≠ .other
      ∧ (∀ a, cl.thisPtr = .threadSafe a → ObjectThere E w t a)
      ∧ (cl.fake = true → E.functionKnown t cl.body = true)
  | .pointer p => (h.slots[p]?).isSome = true
  | .enumCase cls name => E.enumResolves t cls name = true
  | .other => False
  | _ => True

/-- The value can be copied, at every depth. -/
def Copyable (E : Engine) (h : Originals) (w : World) (t : ThreadId) :
    Bound → Prop := Throughout h.Part (h.Known E w t)

/-- A scalar, a string, an array or a reference. -/
def IsData (h : Originals) : Bound → Prop
  | .null => True
  | .bool _ => True
  | .long _ => True
  | .double _ => True
  | .string _ => True
  | .array _ => True
  | .pointer p => (h.slots[p]?).isSome = true
  | _ => False

/-- There is nothing else in the value, at any depth. It may contain
itself. -/
def Data (h : Originals) (v : Bound) : Prop :=
  ∀ u, Relation.ReflTransGen h.Part u v → h.IsData u

end Originals

end PmmpThread.Model
