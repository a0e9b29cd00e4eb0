/-
Doubly linked lists of nodes in a heap, with a head, a tail and an
element count.

# Shape

`Linked` walks the nodes from the head and states each link in both
directions; `Holds` adds the head, the tail, the count, and that no node
comes twice. A node is linked behind the tail (`Holds.snoc`) or before
the head (`Holds.cons`), and unlinked wherever it is (`Holds.unlink`). All
of these take the new heap as given and ask only what its cells are, so
any order of the assignments that gets there will do. What happens to
other nodes does not matter (`Holds.congr`), which is what keeps two lists
in one heap apart.

For a node in the middle the list is cut into segments (`segment_append`);
`Chain` is a list whose count may be wrong.
-/
import PmmpThread.Zend.Heap

namespace PmmpThread.Zend

/-- A node with links to its neighbours. -/
structure Node (α : Type) where
  value : α
  prev : Option Nat
  next : Option Nat

/-- The anchor of a list. -/
structure Dlist where
  head : Option Nat
  tail : Option Nat
  size : Int

namespace Dlist

variable {α : Type} {h h' : Heap (Node α)} {q q' : Dlist}
  {l : List (Nat × α)} {p : Option Nat}

/-- The addresses of the nodes. -/
def addrs (l : List (Nat × α)) : List Nat := l.map Prod.fst

@[simp] theorem addrs_nil : addrs ([] : List (Nat × α)) = [] := rfl

@[simp] theorem addrs_cons (e : Nat × α) (l : List (Nat × α)) :
    addrs (e :: l) = e.1 :: addrs l := rfl

@[simp] theorem addrs_append (l l' : List (Nat × α)) :
    addrs (l ++ l') = addrs l ++ addrs l' := List.map_append

/-- The nodes of `l` in order, the first one behind `p`. -/
def Linked (h : Heap (Node α)) : Option Nat → List (Nat × α) → Prop
  | _, [] => True
  | p, e :: l => h.get e.1 = some ⟨e.2, p, (addrs l).head?⟩
      ∧ Linked h (some e.1) l

/-- The list anchored at `q` has the nodes of `l`, in this order. -/
structure Holds (h : Heap (Node α)) (q : Dlist) (l : List (Nat × α)) :
    Prop where
  linked : Linked h none l
  nodup : (addrs l).Nodup
  head : q.head = (addrs l).head?
  tail : q.tail = (addrs l).getLast?
  size : q.size = l.length

/-- `Holds` but for the count. -/
def Chain (h : Heap (Node α)) (q : Dlist) (l : List (Nat × α)) : Prop :=
  Holds h { q with size := l.length } l

/-- The list without nodes. -/
def empty : Dlist := ⟨none, none, 0⟩

theorem holds_empty (h : Heap (Node α)) : Holds h empty [] where
  linked := trivial
  nodup := List.nodup_nil
  head := rfl
  tail := rfl
  size := rfl

-- ============================================================= frames

theorem Linked.congr : ∀ {l : List (Nat × α)} {p : Option Nat},
    (∀ a ∈ addrs l, h'.get a = h.get a) → Linked h p l → Linked h' p l
  | [], _, _, _ => trivial
  | e :: l, _, hsame, hl => by
      refine ⟨?_, hl.2.congr fun a ha => ?_⟩
      · rw [hsame e.1 (by simp)]
        exact hl.1
      · apply hsame
        simp [ha]

/-- A list does not see what happens to other nodes. -/
theorem Holds.congr (hl : Holds h q l)
    (hsame : ∀ a ∈ addrs l, h'.get a = h.get a) : Holds h' q l :=
  { hl with linked := hl.linked.congr hsame }

theorem Linked.mem : ∀ {l : List (Nat × α)} {p : Option Nat},
    Linked h p l → ∀ e ∈ l, ∃ n, h.get e.1 = some n ∧ n.value = e.2
  | e :: l, p, hl, e', he => by
      rcases List.mem_cons.mp he with he | he
      · rw [he]
        exact ⟨_, hl.1, rfl⟩
      · exact hl.2.mem e' he

/-- Every node of the list is live. -/
theorem Holds.mem (hl : Holds h q l) {e : Nat × α} (he : e ∈ l) :
    ∃ n, h.get e.1 = some n ∧ n.value = e.2 := hl.linked.mem e he

theorem Holds.live (hl : Holds h q l) {a : Nat} (ha : a ∈ addrs l) :
    ∃ n, h.get a = some n := by
  obtain ⟨e, he, rfl⟩ := List.mem_map.mp ha
  obtain ⟨n, hn, -⟩ := hl.mem he
  exact ⟨n, hn⟩

theorem Holds.head_eq_none (hl : Holds h q l) : q.head = none ↔ l = [] := by
  rw [hl.head, List.head?_eq_none_iff]
  exact List.map_eq_nil_iff

theorem Holds.tail_eq_none (hl : Holds h q l) : q.tail = none ↔ l = [] := by
  rw [hl.tail, List.getLast?_eq_none_iff]
  exact List.map_eq_nil_iff

theorem Holds.size_eq_zero (hl : Holds h q l) : q.size = 0 ↔ l = [] := by
  rw [hl.size]
  cases l with
  | nil => simp
  | cons e l =>
      simp only [List.length_cons, reduceCtorEq, iff_false]
      omega

/-- The head of a list that is not empty. -/
theorem Holds.head_cons {e : Nat × α} (hl : Holds h q (e :: l)) :
    q.head = some e.1 := hl.head

-- =========================================================== segments

/-- The nodes of `l` in order, the first one behind `p` and the last one
before `nx`. -/
def Segment (h : Heap (Node α)) :
    Option Nat → List (Nat × α) → Option Nat → Prop
  | _, [], _ => True
  | p, e :: l, nx => h.get e.1 = some ⟨e.2, p, (addrs l).head?.or nx⟩
      ∧ Segment h (some e.1) l nx

theorem linked_iff_segment : Linked h p l ↔ Segment h p l none := by
  induction l generalizing p with
  | nil => exact Iff.rfl
  | cons e l ih => simp only [Linked, Segment, Option.or_none, ih]

variable {nx nx' p' : Option Nat} {l₁ l₂ : List (Nat × α)} {e : Nat × α}

/-- A segment splits anywhere. -/
theorem segment_append : Segment h p (l₁ ++ l₂) nx
    ↔ Segment h p l₁ ((addrs l₂).head?.or nx)
      ∧ Segment h ((addrs l₁).getLast?.or p) l₂ nx := by
  induction l₁ generalizing p with
  | nil => simp [Segment]
  | cons e l ih =>
      have hlast : ((addrs (e :: l)).getLast?.or p)
          = (addrs l).getLast?.or (some e.1) := by
        rw [addrs_cons, List.getLast?_cons]
        cases (addrs l).getLast? <;> rfl
      rw [List.cons_append, Segment, Segment, ih, hlast, addrs_append,
        List.head?_append, Option.or_assoc, and_assoc]

theorem Segment.congr (hl : Segment h p l nx)
    (hsame : ∀ a ∈ addrs l, h'.get a = h.get a) : Segment h' p l nx := by
  induction l generalizing p with
  | nil => trivial
  | cons e l ih =>
      refine ⟨?_, ih hl.2 fun a ha => hsame a (List.mem_cons_of_mem _ ha)⟩
      rw [hsame e.1 List.mem_cons_self]
      exact hl.1

/-- The head is put behind another node. -/
theorem Segment.relinkHead (hl : Segment h p l nx) (hnd : (addrs l).Nodup)
    (hhead : ∀ b n, (addrs l).head? = some b → h.get b = some n →
      h'.get b = some { n with prev := p' })
    (hsame : ∀ c ∈ addrs l, (addrs l).head? ≠ some c → h'.get c = h.get c) :
    Segment h' p' l nx := by
  cases l with
  | nil => trivial
  | cons e l =>
      refine ⟨hhead e.1 _ rfl hl.1, hl.2.congr fun c hc => ?_⟩
      apply hsame c (List.mem_cons_of_mem _ hc)
      intro heq
      have hec : e.1 = c := Option.some.inj heq
      exact (List.nodup_cons.mp hnd).1 (hec ▸ hc)

/-- The last node is put before another one. -/
theorem Segment.relinkLast (hl : Segment h p l nx) (hnd : (addrs l).Nodup)
    (hlast : ∀ b n, (addrs l).getLast? = some b → h.get b = some n →
      h'.get b = some { n with next := nx' })
    (hsame : ∀ c ∈ addrs l, (addrs l).getLast? ≠ some c →
      h'.get c = h.get c) : Segment h' p l nx' := by
  rcases List.eq_nil_or_concat' l with rfl | ⟨l, e, rfl⟩
  · trivial
  · have heq : (addrs (l ++ [e])).getLast? = some e.1 := by
      rw [addrs_append]
      exact List.getLast?_concat
    rw [addrs_append] at hnd
    obtain ⟨hl₁, hl₂⟩ := segment_append.mp hl
    refine segment_append.mpr ⟨hl₁.congr fun c hc => ?_, ?_, trivial⟩
    · apply hsame c (by simp [hc])
      intro hec
      rw [heq] at hec
      refine (List.nodup_append.mp hnd).2.2 c hc e.1 (by simp) ?_
      exact (Option.some.inj hec).symm
    · exact hlast e.1 _ heq hl₂.1

-- ============================================================= adding

/-- A node is linked behind the tail. -/
theorem Holds.snoc (hl : Holds h q l) {a : Nat} {v : α} (ha : a ∉ addrs l)
    (hnew : h'.get a = some ⟨v, q.tail, none⟩)
    (hlast : ∀ b n, q.tail = some b → h.get b = some n →
      h'.get b = some { n with next := some a })
    (hsame : ∀ c ∈ addrs l, q.tail ≠ some c → h'.get c = h.get c)
    (hq : q' = ⟨some (q.head.getD a), some a, q.size + 1⟩) :
    Holds h' q' (l ++ [(a, v)]) where
  linked := by
    rw [hl.tail] at hnew hlast hsame
    refine linked_iff_segment.mpr (segment_append.mpr ⟨?_, ?_, trivial⟩)
    · exact (linked_iff_segment.mp hl.linked).relinkLast hl.nodup hlast hsame
    · rw [hnew, Option.or_none]
      rfl
  nodup := by
    rw [addrs_append]
    refine List.nodup_append.mpr ⟨hl.nodup, by simp, ?_⟩
    intro c hc c' hc' heq
    rw [heq, List.mem_singleton.mp hc'] at hc
    exact ha hc
  head := by
    rw [hq, hl.head]
    cases l with
    | nil => rfl
    | cons e l => rfl
  tail := by
    rw [hq, addrs_append]
    simp
  size := by
    rw [hq]
    simp [hl.size]

/-- A node is linked before the head. -/
theorem Holds.cons (hl : Holds h q l) {a : Nat} {v : α} (ha : a ∉ addrs l)
    (hnew : h'.get a = some ⟨v, none, q.head⟩)
    (hhead : ∀ b n, q.head = some b → h.get b = some n →
      h'.get b = some { n with prev := some a })
    (hsame : ∀ c ∈ addrs l, q.head ≠ some c → h'.get c = h.get c)
    (hq : q' = ⟨some a, some (q.tail.getD a), q.size + 1⟩) :
    Holds h' q' ((a, v) :: l) where
  linked := by
    rw [hl.head] at hnew hhead hsame
    refine linked_iff_segment.mpr ⟨?_, ?_⟩
    · rw [hnew, Option.or_none]
    · exact (linked_iff_segment.mp hl.linked).relinkHead hl.nodup hhead hsame
  nodup := List.nodup_cons.mpr ⟨ha, hl.nodup⟩
  head := by
    rw [hq]
    rfl
  tail := by
    rw [hq, hl.tail, addrs_cons, List.getLast?_cons]
  size := by
    rw [hq]
    show q.size + 1 = _
    rw [hl.size, List.length_cons]
    omega

-- =========================================================== removing

theorem getLast?_concat (l : List (Nat × α)) (e : Nat × α) :
    (addrs (l ++ [e])).getLast? = some e.1 := by
  rw [addrs_append]
  exact List.getLast?_concat

/-- The node between two parts of a list. -/
theorem Holds.get_between (hl : Holds h q (l₁ ++ e :: l₂)) :
    h.get e.1 = some ⟨e.2, (addrs l₁).getLast?, (addrs l₂).head?⟩ := by
  obtain ⟨-, hl₂⟩ := segment_append.mp (linked_iff_segment.mp hl.linked)
  have he := hl₂.1
  rw [Option.or_none, Option.or_none] at he
  exact he

/-- It is in neither part. -/
theorem Holds.not_mem_rest (hl : Holds h q (l₁ ++ e :: l₂)) :
    e.1 ∉ addrs (l₁ ++ l₂) := by
  have hnd := hl.nodup
  rw [addrs_append, addrs_cons] at hnd
  rw [addrs_append]
  exact (List.nodup_cons.mp (List.perm_middle.nodup_iff.mp hnd)).1

theorem Holds.head_eq_iff (hl : Holds h q (l₁ ++ e :: l₂)) :
    q.head = some e.1 ↔ l₁ = [] := by
  have hne := hl.not_mem_rest
  rw [hl.head, addrs_append, addrs_cons]
  cases l₁ with
  | nil => simp
  | cons e' l₁ =>
      have he : e'.1 ≠ e.1 := by
        rintro heq
        simp [heq] at hne
      simp [he]

theorem Holds.tail_eq_iff (hl : Holds h q (l₁ ++ e :: l₂)) :
    q.tail = some e.1 ↔ l₂ = [] := by
  have hne := hl.not_mem_rest
  rw [hl.tail]
  rcases List.eq_nil_or_concat' l₂ with rfl | ⟨l₂, e', rfl⟩
  · simp
  · have he : e'.1 ≠ e.1 := by
      rintro heq
      simp [heq] at hne
    rw [← List.cons_append, ← List.append_assoc, getLast?_concat]
    simp [he]

/-- A node is unlinked, wherever it is. -/
theorem Holds.unlink (hl : Holds h q (l₁ ++ e :: l₂))
    (hprev : ∀ b n, (addrs l₁).getLast? = some b → h.get b = some n →
      h'.get b = some { n with next := (addrs l₂).head? })
    (hnext : ∀ b n, (addrs l₂).head? = some b → h.get b = some n →
      h'.get b = some { n with prev := (addrs l₁).getLast? })
    (hsame : ∀ c, (addrs l₁).getLast? ≠ some c → (addrs l₂).head? ≠ some c →
      h'.get c = h.get c)
    (hq : q' = ⟨if l₁ = [] then (addrs l₂).head? else q.head,
      if l₂ = [] then (addrs l₁).getLast? else q.tail, q.size - 1⟩) :
    Holds h' q' (l₁ ++ l₂) := by
  have hnd := hl.nodup
  rw [addrs_append, addrs_cons] at hnd
  obtain ⟨hnd₁, hnd₂, hapart⟩ := List.nodup_append.mp hnd
  have hnd₂' := (List.nodup_cons.mp hnd₂).2
  obtain ⟨hl₁, -, hl₂⟩ := segment_append.mp (linked_iff_segment.mp hl.linked)
  -- the end of one side is not on the other
  have hne₁ : ∀ c ∈ addrs l₁, (addrs l₂).head? ≠ some c := by
    intro c hc heq
    refine hapart c hc c (List.mem_cons_of_mem _ ?_) rfl
    exact List.mem_of_head? heq
  have hne₂ : ∀ c ∈ addrs l₂, (addrs l₁).getLast? ≠ some c := by
    intro c hc heq
    refine hapart c ?_ c (List.mem_cons_of_mem _ hc) rfl
    exact List.mem_of_getLast? heq
  exact
    { linked := by
        refine linked_iff_segment.mpr (segment_append.mpr ⟨?_, ?_⟩)
        · refine hl₁.relinkLast hnd₁ (fun b n hb hn => ?_) fun c hc hlast => ?_
          · rw [Option.or_none]
            exact hprev b n hb hn
          · exact hsame c hlast (hne₁ c hc)
        · refine hl₂.relinkHead hnd₂' (fun b n hb hn => ?_) fun c hc hhead => ?_
          · rw [Option.or_none]
            exact hnext b n hb hn
          · exact hsame c (hne₂ c hc) hhead
      nodup := by
        rw [addrs_append]
        refine List.nodup_append.mpr ⟨hnd₁, hnd₂', fun c hc d hd => ?_⟩
        exact hapart c hc d (List.mem_cons_of_mem _ hd)
      head := by
        rw [hq, hl.head]
        cases l₁ with
        | nil => rfl
        | cons e' l₁ => rfl
      tail := by
        rw [hq, hl.tail]
        cases l₂ with
        | nil => simp
        | cons e' l₂ => simp [List.getLast?_append]
      size := by
        rw [hq]
        show q.size - 1 = _
        rw [hl.size, List.length_append, List.length_append,
          List.length_cons]
        omega }

end Dlist

end PmmpThread.Zend
