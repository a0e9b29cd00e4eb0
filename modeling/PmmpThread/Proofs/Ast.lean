/-
The copy of a constant expression fills its block exactly.

# One recursion against the other

`copyTree` moves the bump pointer by what `treeSize` adds up: the extents
of its nodes tile the interval in between (`copyTree_spec`). What is
written later lies behind, so a finished subtree is not touched any more
(`Ast.At.congr`), and the node whose children are being copied lies before
all of them.
-/
import PmmpThread.Model.Ast

namespace PmmpThread.Model

open Zend Originals

variable {E : Engine} {h : Originals} {t : ThreadId}

-- ============================================================ literals

theorem copyTable_literal {copy : Copier} {es : List (Key × Bound)}
    (hes : ∀ e ∈ es, ∀ w, copy w e.2 = some (some e.2.copied, w))
    (w : World) : copyHash copy es w = some (copiedTable es, w) := by
  induction es with
  | nil => rfl
  | cons e es ih =>
      have htail := ih fun e' he' => hes e' (List.mem_cons_of_mem _ he')
      unfold copyHash at htail ⊢
      rw [copyTable, hes e List.mem_cons_self w, Option.bind_some, htail]
      rfl

theorem literal_leaf {v : Bound} {c : ZvalCopy}
    (hv : ∀ fuel w, copyZval E h t (fuel + 1) w v = some (some c, w)) :
    ∃ n, ∀ fuel, n ≤ fuel → ∀ w, copyZval E h t fuel w v
      = some (some c, w) := by
  refine ⟨1, fun fuel hfuel w => ?_⟩
  obtain ⟨fuel, rfl⟩ : ∃ f, fuel = f + 1 := ⟨fuel - 1, by omega⟩
  exact hv fuel w

mutual
/-- `pmmpthread_copy_zval` copies a literal, and nothing else happens. -/
theorem copyZval_literal (E : Engine) (h : Originals) (t : ThreadId) :
    (v : Bound) → v.isLiteral = true → ∃ n, ∀ fuel, n ≤ fuel →
      ∀ w, copyZval E h t fuel w v = some (some v.copied, w)
  | .null => fun _ => literal_leaf fun _ _ => rfl
  | .bool _ => fun _ => literal_leaf fun _ _ => rfl
  | .long _ => fun _ => literal_leaf fun _ _ => rfl
  | .double _ => fun _ => literal_leaf fun _ _ => rfl
  | .string _ => fun _ => literal_leaf fun _ _ => rfl
  | .array es => fun hv => by
      obtain ⟨n, hn⟩ := copyTable_literals E h t es hv
      refine ⟨n + 1, fun fuel hfuel w => ?_⟩
      obtain ⟨fuel, rfl⟩ : ∃ f, fuel = f + 1 := ⟨fuel - 1, by omega⟩
      rw [copyZval, copyTable_literal (hn fuel (by omega))]
      rfl
  | .threadSafe _ => fun hv => absurd hv Bool.false_ne_true
  | .closure _ => fun hv => absurd hv Bool.false_ne_true
  | .enumCase _ _ => fun hv => absurd hv Bool.false_ne_true
  | .constantAst _ => fun hv => absurd hv Bool.false_ne_true
  | .pointer _ => fun hv => absurd hv Bool.false_ne_true
  | .other => fun hv => absurd hv Bool.false_ne_true

theorem copyTable_literals (E : Engine) (h : Originals) (t : ThreadId) :
    (es : List (Key × Bound)) → isLiteralTable es = true →
      ∃ n, ∀ fuel, n ≤ fuel → ∀ e ∈ es,
        ∀ w, copyZval E h t fuel w e.2 = some (some e.2.copied, w)
  | [] => fun _ => ⟨0, fun _ _ e he => absurd he List.not_mem_nil⟩
  | (k, v) :: es => fun hv => by
      obtain ⟨hhead, htail⟩ := Bool.and_eq_true_iff.mp hv
      obtain ⟨n, hn⟩ := copyZval_literal E h t v hhead
      obtain ⟨n', hn'⟩ := copyTable_literals E h t es htail
      refine ⟨max n n', fun fuel hfuel e he => ?_⟩
      rcases List.mem_cons.mp he with rfl | he
      · exact hn fuel (by omega)
      · exact hn' fuel (by omega) e he
end

/-- One depth is enough for all literals of a tree. -/
theorem copyZval_literals (E : Engine) (h : Originals) (t : ThreadId)
    (vs : List Literal) : ∃ n, ∀ fuel, n ≤ fuel → ∀ v ∈ vs,
      ∀ w, copyZval E h t fuel w v.val = some (some v.val.copied, w) :=
  exists_bound_of_forall_mem fun v _ => copyZval_literal E h t v.val v.literal

-- =============================================================== sizes

theorem astSize_pos (L : AstSizes) (n : Nat) : 0 < L.astSize n := by
  have hlt := L.pointer_lt_ast
  unfold AstSizes.astSize
  omega

theorem listSize_pos (L : AstSizes) (n : Nat) : 0 < L.listSize n := by
  have hlt := L.pointer_lt_list
  unfold AstSizes.listSize
  omega

-- ============================================================== frames

variable {L : AstSizes} {m m' : AstMem}

mutual
/-- A tree does not see what is written outside of its nodes. -/
theorem Ast.At.congr : (ast : Ast) → ∀ {a : Nat} {xs : List Extent},
    ast.At L m a xs → (∀ x ∈ xs, m'.get x.addr = m.get x.addr) →
      ast.At L m' a xs
  | .zval attr v => fun hat hsame => by
      obtain ⟨hget, rfl⟩ := hat
      exact ⟨(hsame _ List.mem_cons_self).trans hget, rfl⟩
  | .constant attr name => fun hat hsame => by
      obtain ⟨hget, rfl⟩ := hat
      exact ⟨(hsame _ List.mem_cons_self).trans hget, rfl⟩
  | .list k attr n cs => fun hat hsame => by
      obtain ⟨ps, ys, hget, hcs, rfl⟩ := hat
      refine ⟨ps, ys, (hsame _ List.mem_cons_self).trans hget, ?_, rfl⟩
      exact AstChildren.At.congr cs hcs fun x hx =>
        hsame x (List.mem_cons_of_mem _ hx)
  | .fixed k attr cs => fun hat hsame => by
      obtain ⟨ps, ys, hget, hcs, rfl⟩ := hat
      refine ⟨ps, ys, (hsame _ List.mem_cons_self).trans hget, ?_, rfl⟩
      exact AstChildren.At.congr cs hcs fun x hx =>
        hsame x (List.mem_cons_of_mem _ hx)

theorem AstChildren.At.congr {n : Nat} : (cs : AstChildren n) →
    ∀ {ps : List (Option Nat)} {xs : List Extent}, cs.At L m ps xs →
      (∀ x ∈ xs, m'.get x.addr = m.get x.addr) → cs.At L m' ps xs
  | .nil => fun hat _ => hat
  | .null rest => fun hat hsame => by
      obtain ⟨qs, rfl, hrest⟩ := hat
      exact ⟨qs, rfl, AstChildren.At.congr rest hrest hsame⟩
  | .child a rest => fun hat hsame => by
      obtain ⟨p, qs, ys, zs, rfl, ha, hrest, rfl⟩ := hat
      refine ⟨p, qs, ys, zs, rfl, ?_, ?_, rfl⟩
      · exact Ast.At.congr a ha fun x hx =>
          hsame x (List.mem_append_left _ hx)
      · exact AstChildren.At.congr rest hrest fun x hx =>
          hsame x (List.mem_append_right _ hx)
end

-- ============================================================= copying

/-- Nothing was written outside of the interval. -/
def Outside (m m' : AstMem) (lo hi : Nat) : Prop :=
  ∀ a, a < lo ∨ hi ≤ a → m'.get a = m.get a

/-- What the copy of a tree leaves: the tree at `buf`, in extents that
tile what was used. -/
structure Copied (L : AstSizes) (ast : Ast) (buf : Nat) (m m' : AstMem)
    (xs : List Extent) : Prop where
  tree : ast.At L m' buf xs
  tiles : Tiles buf (buf + ast.treeSize L) xs
  outside : Outside m m' buf (buf + ast.treeSize L)

/-- The same for the children of the node at `new`. -/
structure ChildrenCopied (L : AstSizes) {n : Nat} (cs : AstChildren n)
    (new buf : Nat) (ps : List (Option Nat)) (m m' : AstMem)
    (xs : List Extent) : Prop where
  children : cs.At L m' ps xs
  tiles : Tiles buf (buf + cs.treeSize L) xs
  outside : ∀ a, a ≠ new → a < buf ∨ buf + cs.treeSize L ≤ a →
    m'.get a = m.get a

/-- A node with pointers to its children. -/
def AstNode.setChildren (ps : List (Option Nat)) : AstNode → AstNode
  | .list k attr n qs => .list k attr n (qs ++ ps)
  | .fixed k attr qs => .fixed k attr (qs ++ ps)
  | node => node

@[simp] theorem AstNode.setChildren_nil (node : AstNode) :
    node.setChildren [] = node := by
  cases node <;> simp [setChildren]

@[simp] theorem AstNode.setChildren_cons (p : Option Nat)
    (ps : List (Option Nat)) (node : AstNode) :
    (node.setChild p).setChildren ps = node.setChildren (p :: ps) := by
  cases node <;> simp [setChildren, setChild]

/-- A leaf is written. -/
theorem copied_leaf {ast : Ast} {buf : Nat} {node : AstNode}
    (hat : ast.At L (m.place buf node) buf [⟨buf, L.zval⟩])
    (hsize : ast.treeSize L = L.zval) :
    Copied L ast buf m (m.place buf node) [⟨buf, L.zval⟩] where
  tree := hat
  tiles := by
    rw [hsize]
    exact tiles_single L.zval_pos
  outside a ha := by
    have hpos := L.zval_pos
    rw [Heap.get_place, if_neg (by omega)]

mutual
/-- `pmmpthread_copy_ast_tree` with a copier for the literals. -/
theorem copyTree_spec {copy : Copier} : (ast : Ast) →
    (∀ v ∈ ast.literals, ∀ w, copy w v.val = some (some v.val.copied, w)) →
    ∀ buf m w, ∃ m' xs,
      ast.copyTree L copy buf m w = some (buf + ast.treeSize L, m', w)
        ∧ Copied L ast buf m m' xs
  | .zval attr v => fun hcopy buf m w => by
      refine ⟨_, _, ?_, copied_leaf ⟨Heap.get_place_self _ _ _, rfl⟩ rfl⟩
      unfold Ast.copyTree
      rw [hcopy v List.mem_cons_self]
      rfl
  | .constant attr name => fun _ buf m w =>
      ⟨_, _, rfl, copied_leaf ⟨Heap.get_place_self _ _ _, rfl⟩ rfl⟩
  | .list k attr n cs => fun hcopy buf m w => by
      have hpos := listSize_pos L n
      obtain ⟨m', ps, xs, hc, hnew, hcs⟩ := copyChildren_spec cs hcopy buf
        (buf + L.listSize n) _ w (.list k.kind attr n [])
        (Heap.get_place_self m buf _) (by omega)
      have hsize : buf + L.listSize n + cs.treeSize L
          = buf + (Ast.list k attr n cs).treeSize L := by
        rw [Ast.treeSize]
        omega
      refine ⟨m', ⟨buf, L.listSize n⟩ :: xs, ?_, ?_, ?_, fun a ha => ?_⟩
      · rw [← hsize]
        exact hc
      · exact ⟨ps, xs, hnew, hcs.children, rfl⟩
      · rw [← hsize]
        exact ⟨rfl, hpos, hcs.tiles⟩
      · rw [hcs.outside a (by omega) (by omega), Heap.get_place,
          if_neg (by omega)]
  | .fixed k attr cs => fun hcopy buf m w => by
      have hpos := astSize_pos L k.numChildren
      obtain ⟨m', ps, xs, hc, hnew, hcs⟩ := copyChildren_spec cs hcopy buf
        (buf + L.astSize k.numChildren) _ w (.fixed k.kind attr [])
        (Heap.get_place_self m buf _) (by omega)
      have hsize : buf + L.astSize k.numChildren + cs.treeSize L
          = buf + (Ast.fixed k attr cs).treeSize L := by
        rw [Ast.treeSize]
        omega
      refine ⟨m', ⟨buf, L.astSize k.numChildren⟩ :: xs, ?_, ?_, ?_,
        fun a ha => ?_⟩
      · rw [← hsize]
        exact hc
      · exact ⟨ps, xs, hnew, hcs.children, rfl⟩
      · rw [← hsize]
        exact ⟨rfl, hpos, hcs.tiles⟩
      · rw [hcs.outside a (by omega) (by omega), Heap.get_place,
          if_neg (by omega)]

/-- The loop over the children. The node lies before what is copied. -/
theorem copyChildren_spec {copy : Copier} {n : Nat} : (cs : AstChildren n) →
    (∀ v ∈ cs.literals, ∀ w, copy w v.val = some (some v.val.copied, w)) →
    ∀ new buf m w node, m.get new = some node → new < buf →
    ∃ m' ps xs,
      cs.copyChildren L copy new buf m w = some (buf + cs.treeSize L, m', w)
        ∧ m'.get new = some (node.setChildren ps)
        ∧ ChildrenCopied L cs new buf ps m m' xs
  | .nil => fun _ new buf m w node hnode _ =>
      ⟨m, [], [], rfl, by simpa using hnode, ⟨rfl, rfl⟩, rfl,
        fun _ _ _ => rfl⟩
  | .null rest => fun hcopy new buf m w node hnode hlt => by
      obtain ⟨m', ps, xs, hc, hnew, hrest⟩ := copyChildren_spec rest hcopy new
        buf (m.modify new (.setChild none)) w (node.setChild none)
        (by rw [Heap.get_modify_self, hnode]; rfl) hlt
      refine ⟨m', none :: ps, xs, hc, by simpa using hnew,
        ⟨ps, rfl, hrest.children⟩, hrest.tiles, fun a hne ha => ?_⟩
      rw [hrest.outside a hne ha, Heap.get_modify_ne _ _ hne]
  | .child a rest => fun hcopy new buf m w node hnode hlt => by
      -- the pointer, the child, and the rest behind it
      obtain ⟨m₁, xs, hc₁, ha⟩ := copyTree_spec a
        (fun v hv => hcopy v (List.mem_append_left _ hv)) buf
        (m.modify new (.setChild (some buf))) w
      have hnode₁ : m₁.get new = some (node.setChild (some buf)) := by
        rw [ha.outside new (Or.inl hlt), Heap.get_modify_self, hnode]
        rfl
      obtain ⟨m₂, ps, ys, hc₂, hnew, hrest⟩ := copyChildren_spec rest
        (fun v hv => hcopy v (List.mem_append_right _ hv)) new
        (buf + a.treeSize L) m₁ w _ hnode₁ (by omega)
      have hsize : buf + a.treeSize L + rest.treeSize L
          = buf + (AstChildren.child a rest).treeSize L := by
        rw [AstChildren.treeSize]
        omega
      have htree : a.At L m₂ buf xs := by
        refine Ast.At.congr a ha.tree fun x hx => ?_
        have hx' := ha.tiles.addr_mem hx
        exact hrest.outside x.addr (by omega) (Or.inl hx'.2)
      refine ⟨m₂, some buf :: ps, xs ++ ys, ?_, by simpa using hnew,
        ⟨buf, ps, xs, ys, rfl, htree, hrest.children, rfl⟩, ?_,
        fun b hne hb => ?_⟩
      · unfold AstChildren.copyChildren
        rw [hc₁, Option.bind_some, hc₂, hsize]
      · rw [← hsize]
        exact ha.tiles.append hrest.tiles
      · rw [hrest.outside b hne (by omega), ha.outside b (by omega),
          Heap.get_modify_ne _ _ hne]
end

-- =========================================================== the block

/-- The tree at `buf` is the source tree, node by node. The nodes do not
overlap, lie between `buf` and `hi`, and take all of it; nothing else was
written. -/
structure Fills (L : AstSizes) (ast : Ast) (buf hi : Nat) (m m' : AstMem)
    (xs : List Extent) : Prop where
  tree : ast.At L m' buf xs
  apart : xs.Pairwise Extent.Disjoint
  inside : ∀ x ∈ xs, x.Inside buf hi ∧ 0 < x.size
  all : buf + (xs.map Extent.size).sum = hi
  outside : Outside m m' buf hi

theorem Copied.fills {ast : Ast} {buf : Nat} {xs : List Extent}
    (hc : Copied L ast buf m m' xs) :
    Fills L ast buf (buf + ast.treeSize L) m m' xs :=
  ⟨hc.tree, hc.tiles.pairwise, hc.tiles.inside, hc.tiles.sum, hc.outside⟩

/-- The copy of a constant expression returns where `zend_ast_tree_size`
says that it ends, and is the expression it was made from. The block that
`pmmpthread_copy_ast` asks for holds the header and the tree, and nothing
is left over. -/
theorem copyAst_exact (E : Engine) (h : Originals) (t : ThreadId)
    (L : AstSizes) (ast : Ast) :
    ∃ n, ∀ fuel, n ≤ fuel → ∀ (m : AstMem) (w : World),
      (∀ buf, ∃ m' xs, ast.copyTree L (copyZval E h t fuel) buf m w
          = some (buf + ast.treeSize L, m', w)
        ∧ Fills L ast buf (buf + ast.treeSize L) m m' xs)
      ∧ ∀ emalloc, ∃ m' xs, ast.copyAst L (copyZval E h t fuel) emalloc m w
          = some (emalloc (ast.blockSize L), m', w)
        ∧ Fills L ast (emalloc (ast.blockSize L) + L.ref)
          (emalloc (ast.blockSize L) + ast.blockSize L) m m' xs := by
  obtain ⟨n, hn⟩ := copyZval_literals E h t ast.literals
  refine ⟨n, fun fuel hfuel m w => ?_⟩
  have hspec := copyTree_spec (L := L) ast (hn fuel hfuel)
  refine ⟨fun buf => ?_, fun emalloc => ?_⟩
  · obtain ⟨m', xs, hc, hcopied⟩ := hspec buf m w
    exact ⟨m', xs, hc, hcopied.fills⟩
  · obtain ⟨m', xs, hc, hcopied⟩ :=
      hspec (emalloc (ast.blockSize L) + L.ref) m w
    have hend : emalloc (ast.blockSize L) + L.ref + ast.treeSize L
        = emalloc (ast.blockSize L) + ast.blockSize L := by
      unfold Ast.blockSize
      omega
    refine ⟨m', xs, ?_, ?_⟩
    · exact congrArg
        (Option.map fun r => (emalloc (ast.blockSize L), r.2)) hc
    · rw [← hend]
      exact hcopied.fills

/-- A list in a list, with null children in both. -/
example : (Ast.list ⟨128, by decide, by decide⟩ 0 2
    (.child (.list ⟨129, by decide, by decide⟩ 0 2
      (.null (.child (.constant 0 [80, 73]) .nil))) (.null .nil))).treeSize
        .lp64 = 32 + (32 + 24) := by decide

end PmmpThread.Model
