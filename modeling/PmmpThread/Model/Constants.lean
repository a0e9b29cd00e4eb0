/-
The global constants of a new thread: `pmmpthread_prepare_constants`
(src/prepare.c), with `pmmpthread_copy_zval` (src/copy.c) for their
values.

# Values

A value is a tree. A ThreadSafe object is its ts_obj, a closure its code
and an enum case its two names, so that a copy on the child that is
connected to the same ts_obj, has the same code or is the same case is
the same `Value`. References are followed.

# The engine's part

`zend_register_constant` lowers the case of a namespace, keeps names for
itself and does not replace a constant. Both threads' constants got
there through it, so the names in a creator's table are ones it leaves
as they are; `ConstantTable` carries that.
-/
import PmmpThread.Zend.Hash

namespace PmmpThread.Model.Constants

open Zend

-- ================================================================= values

mutual
inductive Value where
  | null
  | bool (b : Bool)
  | long (n : Int)
  | double (bits : UInt64)
  | string (bytes : List UInt8)
  | array (elements : Elements)
  /-- `IS_INDIRECT` or `IS_REFERENCE`. -/
  | reference (referent : Value)
  | constantAst (code : Nat)
  | object (ts : Nat)
  | closure (code : Nat)
  | enumCase (cls name : List UInt8)
  | resource
  /-- An object that is not thread-safe. -/
  | other

inductive Elements where
  | nil
  | cons (k : Key) (v : Value) (rest : Elements)
end

/-- What the child can make of a creator's closure or enum case. -/
structure Context where
  closureCopied : Nat → Bool
  caseResolves : List UInt8 → List UInt8 → Bool

mutual
/-- `pmmpthread_copy_zval`; `none` is `FAILURE`. -/
def copyZval (ctx : Context) : Value → Option Value
  | .reference referent => copyZval ctx referent
  | .array elements => some (.array (copyHash ctx elements))
  | .closure code =>
      if ctx.closureCopied code then some (.closure code) else none
  | .enumCase cls name =>
      if ctx.caseResolves cls name then some (.enumCase cls name) else none
  | .resource | .other => none
  | v => some v

/-- `pmmpthread_copy_hash`: what is not copied is left out. -/
def copyHash (ctx : Context) : Elements → Elements
  | .nil => .nil
  | .cons k v rest =>
      match copyZval ctx v with
      | some v' => .cons k v' (copyHash ctx rest)
      | none => copyHash ctx rest
end

mutual
/-- Every part of the value can be copied. -/
def Value.copyable (ctx : Context) : Value → Bool
  | .reference referent => referent.copyable ctx
  | .array elements => elements.copyable ctx
  | .closure code => ctx.closureCopied code
  | .enumCase cls name => ctx.caseResolves cls name
  | .resource | .other => false
  | _ => true

def Elements.copyable (ctx : Context) : Elements → Bool
  | .nil => true
  | .cons _ v rest => v.copyable ctx && rest.copyable ctx
end

mutual
/-- The value with its references followed. -/
def Value.deref : Value → Value
  | .reference referent => referent.deref
  | .array elements => .array elements.deref
  | v => v

def Elements.deref : Elements → Elements
  | .nil => .nil
  | .cons k v rest => .cons k v.deref rest.deref
end

-- ============================================================== constants

/-- `zend_constant`: its name, its value, `CONST_PERSISTENT` and the other
flags with the module number. -/
structure Constant where
  name : Option (List UInt8)
  value : Value
  persistent : Bool
  flags : Nat

/-- `zend_tolower_ascii`. -/
def lowerByte (c : UInt8) : UInt8 := if 65 ≤ c && c ≤ 90 then c + 32 else c

/-- `zend_string_tolower`. -/
def lower (name : List UInt8) : List UInt8 := name.map lowerByte

/-- The key that `zend_register_constant` uses: the namespace, up to the
last backslash that `strrchr` finds, in lower case. -/
def registerName (name : List UInt8) : List UInt8 :=
  let chars := name.takeWhile (· != 0)
  let base := chars.reverse.takeWhile (· != 92)
  let slash := chars.length - base.length
  lower (name.take slash) ++ name.drop slash

/-- `__COMPILER_HALT_OFFSET__`. -/
def haltOffset : List UInt8 :=
  [95, 95, 67, 79, 77, 80, 73, 76, 69, 82, 95, 72, 65, 76, 84, 95, 79, 70, 70,
    83, 69, 84, 95, 95]

/-- `zend_get_special_const`: true, false and null in any case. -/
def isSpecial (name : List UInt8) : Bool :=
  lower name == [116, 114, 117, 101] || lower name == [102, 97, 108, 115, 101]
    || lower name == [110, 117, 108, 108]

/-- The names that `zend_register_constant` does not keep for itself. -/
def registrable (name : List UInt8) (c : Constant) : Bool :=
  name != haltOffset && (c.persistent || !isSpecial name)

/-- `zend_register_constant`. A constant that is there stays, with a
warning. -/
def registerConstant (t : HashTable Constant) (name : List UInt8)
    (c : Constant) : HashTable Constant :=
  let key := registerName name
  if registrable key c && !t.contains (.str key) then
    t.update true (.str key) c
  else t

/-- `EG(zend_constants)`: a table that `zend_register_constant` filled. -/
structure ConstantTable where
  table : HashTable Constant
  registered : ∀ e ∈ table.entries, ∃ name, e.1 = .str name
    ∧ registerName name = name ∧ registrable name e.2 = true
    ∧ e.2.name.isSome = true

namespace ConstantTable

def empty : ConstantTable where
  table := .init 8
  registered := fun _ he => by cases he

/-- A `define` of a name that is registered as it stands. -/
def define (t : ConstantTable) (name : List UInt8) (v : Value)
    (h : registerName name = name
      ∧ registrable name ⟨some name, v, false, 0⟩ = true) : ConstantTable where
  table := t.table.update true (.str name) ⟨some name, v, false, 0⟩
  registered := by
    intro e he
    rcases HashTable.mem_entries_update.mp he with rfl | ⟨he, -⟩
    · exact ⟨name, rfl, h.1, h.2, rfl⟩
    · exact t.registered e he

end ConstantTable

/-- `pmmpthread_constant_exists`. -/
def constantExists (t : HashTable Constant) (name : List UInt8) : Bool :=
  t.contains (.str name) || t.contains (.str (lower name))

/-- One round of `pmmpthread_prepare_constants`; `none` is the fatal error
of a value that is not copied. -/
def prepareConstant (ctx : Context) (t : HashTable Constant)
    (e : Key × Constant) : Option (HashTable Constant) :=
  match e.1, e.2.name, e.2.value with
  | .str _, some _, .resource => some t
  | .str name, some _, value =>
      if constantExists t name then some t
      else (copyZval ctx value).map fun v =>
        registerConstant t name { e.2 with name := some name, value := v }
  | _, _, _ => some t

/-- `pmmpthread_prepare_constants`. -/
def prepareConstants (ctx : Context) (creator : ConstantTable)
    (child : HashTable Constant) : Option (HashTable Constant) :=
  creator.table.entries.foldlM (prepareConstant ctx) child

end PmmpThread.Model.Constants
