/-
Constant expressions: `pmmpthread_copy_ast` of src/copy.c with the two
recursions behind it, `zend_ast_tree_size` and `pmmpthread_copy_ast_tree`.

# Trees

The tests of the source on the kind of a node tell four forms apart. A list
says itself how many children it has, any other node has as many as its
kind says; a child may be null. The type has no other trees. A leaf is a
literal: a scalar, a string or an array of these.

# Memory

The copy is written into one block, node after node. A node in memory has
the children that were set so far. How many bytes a node takes is up to the
layout of the engine's structs (`AstSizes`); what is needed of it is that
the children are the last field and not the first one. The size of a tree
that exists fits a `size_t`.
-/
import PmmpThread.Model.Closures
import PmmpThread.Zend.Heap
import PmmpThread.Zend.Tiles

namespace PmmpThread.Model

open Zend

-- ============================================================ literals

mutual
/-- A value that can be written in a constant expression. -/
def Bound.isLiteral : Bound → Bool
  | .null => true
  | .bool _ => true
  | .long _ => true
  | .double _ => true
  | .string _ => true
  | .array es => isLiteralTable es
  | _ => false

def isLiteralTable : List (Key × Bound) → Bool
  | [] => true
  | (_, v) :: es => v.isLiteral && isLiteralTable es
end

mutual
/-- The copy of a literal. -/
def Bound.copied : Bound → ZvalCopy
  | .null => .null
  | .bool b => .bool b
  | .long n => .long n
  | .double d => .double d
  | .string b => .string b
  | .array es => .array (copiedTable es)
  | _ => .uninit

def copiedTable : List (Key × Bound) → List (Key × ZvalCopy)
  | [] => []
  | (k, v) :: es => (k, v.copied) :: copiedTable es
end

/-- `zend_ast_get_zval`. -/
structure Literal where
  val : Bound
  literal : val.isLiteral = true

-- =============================================================== trees

namespace AstKind

/-- `ZEND_AST_ZVAL`. -/
def zval : Nat := 64

/-- `ZEND_AST_CONSTANT`. -/
def constant : Nat := 65

/-- `zend_ast_is_list`. -/
def isList (kind : Nat) : Bool := kind >>> 7 &&& 1 == 1

/-- `zend_ast_get_num_children`. -/
def numChildren (kind : Nat) : Nat := kind >>> 8

end AstKind

/-- The kind of a list. -/
structure ListKind where
  kind : Nat
  fits : kind < 2 ^ 16
  isList : AstKind.isList kind = true

/-- The kind of a node with a fixed number of children. -/
structure FixedKind where
  kind : Nat
  fits : kind < 2 ^ 16
  not_list : AstKind.isList kind = false
  not_zval : kind ≠ AstKind.zval
  not_constant : kind ≠ AstKind.constant

namespace FixedKind

def numChildren (k : FixedKind) : Nat := AstKind.numChildren k.kind

end FixedKind

mutual
/-- `zend_ast`. -/
inductive Ast : Type where
  | zval (attr : Nat) (val : Literal)
  | constant (attr : Nat) (name : Bytes)
  | list (kind : ListKind) (attr children : Nat)
      (child : AstChildren children)
  | fixed (kind : FixedKind) (attr : Nat)
      (child : AstChildren kind.numChildren)

/-- The children of a node. -/
inductive AstChildren : Nat → Type where
  | nil : AstChildren 0
  | null {n : Nat} (rest : AstChildren n) : AstChildren (n + 1)
  | child {n : Nat} (ast : Ast) (rest : AstChildren n) : AstChildren (n + 1)
end

/-- `ast->kind`. -/
def Ast.kind : Ast → Nat
  | .zval _ _ => AstKind.zval
  | .constant _ _ => AstKind.constant
  | .list k _ _ _ => k.kind
  | .fixed k _ _ => k.kind

mutual
/-- The literals in a tree. -/
def Ast.literals : Ast → List Literal
  | .zval _ v => [v]
  | .constant _ _ => []
  | .list _ _ _ cs => cs.literals
  | .fixed _ _ cs => cs.literals

def AstChildren.literals {n : Nat} : AstChildren n → List Literal
  | .nil => []
  | .null rest => rest.literals
  | .child a rest => a.literals ++ rest.literals
end

-- =============================================================== sizes

/-- The `sizeof` of a pointer, `zend_ast`, `zend_ast_list`, `zend_ast_zval`
and `zend_ast_ref`. -/
structure AstSizes where
  pointer : Nat
  ast : Nat
  list : Nat
  zval : Nat
  ref : Nat
  pointer_lt_ast : pointer < ast
  pointer_lt_list : pointer < list
  zval_pos : 0 < zval

namespace AstSizes

/-- On a 64-bit system. -/
def lp64 : AstSizes where
  pointer := 8
  ast := 16
  list := 24
  zval := 24
  ref := 8
  pointer_lt_ast := by decide
  pointer_lt_list := by decide
  zval_pos := by decide

/-- `zend_ast_size`. -/
def astSize (L : AstSizes) (children : Nat) : Nat :=
  L.ast - L.pointer + L.pointer * children

/-- `zend_ast_list_size`. -/
def listSize (L : AstSizes) (children : Nat) : Nat :=
  L.list - L.pointer + L.pointer * children

end AstSizes

mutual
/-- `zend_ast_tree_size`. -/
def Ast.treeSize (L : AstSizes) : Ast → Nat
  | .zval _ _ => L.zval
  | .constant _ _ => L.zval
  | .list _ _ n cs => L.listSize n + cs.treeSize L
  | .fixed k _ cs => L.astSize k.numChildren + cs.treeSize L

def AstChildren.treeSize (L : AstSizes) {n : Nat} : AstChildren n → Nat
  | .nil => 0
  | .null rest => rest.treeSize L
  | .child a rest => a.treeSize L + rest.treeSize L
end

-- ============================================================= copying

/-- A node in memory. -/
inductive AstNode where
  | zval (attr : Nat) (val : ZvalCopy)
  | constant (attr : Nat) (name : Bytes)
  | list (kind attr children : Nat) (child : List (Option Nat))
  | fixed (kind attr : Nat) (child : List (Option Nat))

/-- The next `new->child[i]`. -/
def AstNode.setChild (p : Option Nat) : AstNode → AstNode
  | .list k attr n ps => .list k attr n (ps ++ [p])
  | .fixed k attr ps => .fixed k attr (ps ++ [p])
  | node => node

abbrev AstMem := Heap AstNode

open Originals (Copier)

mutual
/-- `pmmpthread_copy_ast_tree`: the new `buf`. A value that is not copied
is not written. -/
def Ast.copyTree (L : AstSizes) (copy : Copier) :
    Ast → Nat → AstMem → World → Option (Nat × AstMem × World)
  | .zval attr v, buf, m, w =>
      (copy w v.val).map fun r =>
        (buf + L.zval, m.place buf (.zval attr (r.1.getD .uninit)), r.2)
  | .constant attr name, buf, m, w =>
      some (buf + L.zval, m.place buf (.constant attr name), w)
  | .list k attr n cs, buf, m, w =>
      cs.copyChildren L copy buf (buf + L.listSize n)
        (m.place buf (.list k.kind attr n [])) w
  | .fixed k attr cs, buf, m, w =>
      cs.copyChildren L copy buf (buf + L.astSize k.numChildren)
        (m.place buf (.fixed k.kind attr [])) w

/-- The loop over the children of the node `new`. -/
def AstChildren.copyChildren (L : AstSizes) (copy : Copier) {n : Nat} :
    AstChildren n → Nat → Nat → AstMem → World →
      Option (Nat × AstMem × World)
  | .nil, _, buf, m, w => some (buf, m, w)
  | .null rest, new, buf, m, w =>
      rest.copyChildren L copy new buf (m.modify new (.setChild none)) w
  | .child a rest, new, buf, m, w =>
      (a.copyTree L copy buf (m.modify new (.setChild (some buf))) w).bind
        fun r => rest.copyChildren L copy new r.1 r.2.1 r.2.2
end

/-- The bytes that `pmmpthread_copy_ast` asks for. -/
def Ast.blockSize (L : AstSizes) (ast : Ast) : Nat := ast.treeSize L + L.ref

/-- `pmmpthread_copy_ast`: the `zend_ast_ref`. -/
def Ast.copyAst (L : AstSizes) (copy : Copier) (emalloc : Nat → Nat)
    (ast : Ast) (m : AstMem) (w : World) : Option (Nat × AstMem × World) :=
  let ref := emalloc (ast.blockSize L)
  (ast.copyTree L copy (ref + L.ref) m w).map fun r => (ref, r.2)

-- ============================================================ the copy

mutual
/-- The tree with the root at `a` is the one given, in the extents `xs`. -/
def Ast.At (L : AstSizes) (m : AstMem) : Ast → Nat → List Extent → Prop
  | .zval attr v, a, xs =>
      m.get a = some (.zval attr v.val.copied) ∧ xs = [⟨a, L.zval⟩]
  | .constant attr name, a, xs =>
      m.get a = some (.constant attr name) ∧ xs = [⟨a, L.zval⟩]
  | .list k attr n cs, a, xs => ∃ ps ys,
      m.get a = some (.list k.kind attr n ps) ∧ cs.At L m ps ys
        ∧ xs = ⟨a, L.listSize n⟩ :: ys
  | .fixed k attr cs, a, xs => ∃ ps ys,
      m.get a = some (.fixed k.kind attr ps) ∧ cs.At L m ps ys
        ∧ xs = ⟨a, L.astSize k.numChildren⟩ :: ys

/-- The pointers of a node are to its children, null where one is null. -/
def AstChildren.At (L : AstSizes) (m : AstMem) {n : Nat} :
    AstChildren n → List (Option Nat) → List Extent → Prop
  | .nil, ps, xs => ps = [] ∧ xs = []
  | .null rest, ps, xs => ∃ qs, ps = none :: qs ∧ rest.At L m qs xs
  | .child a rest, ps, xs => ∃ p qs ys zs, ps = some p :: qs
      ∧ a.At L m p ys ∧ rest.At L m qs zs ∧ xs = ys ++ zs
end

end PmmpThread.Model
