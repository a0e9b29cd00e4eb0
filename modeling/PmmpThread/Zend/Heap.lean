/-
A heap of one kind of cell, with an allocator that may answer with any
address that is not in use.

# Reuse

What the allocator of a C program promises is only that a new block
does not overlap a live one; an address that was freed may come back at
once, later, or never. `Allocator` is that promise: a function of the
addresses in use and of the addresses handed out so far. The second
argument makes one fixed function enough for every behaviour, since it
grows with each allocation and so no two allocations of a run look
alike. A development that needs addresses to stay unique says so with
`Allocator.NoReuse`.

# Counting

`count` is how reference counts are compared with what they count.
Each operation changes it at one address, by a law of the form
"new count + what was there = old count + what is there now".
-/
import Mathlib.Data.List.AList
import Mathlib.Tactic.Common

namespace PmmpThread.Zend

/-- A choice of addresses: any address that is not in use. -/
structure Allocator where
  pick : (used past : List Nat) → Nat
  fresh : ∀ used past, pick used past ∉ used

namespace Allocator

/-- Addresses are never handed out twice. -/
def NoReuse (A : Allocator) : Prop :=
  ∀ used past, A.pick used past ∉ past

theorem lt_foldr_max_succ (l : List Nat) {a : Nat} (h : a ∈ l) :
    a < l.foldr max 0 + 1 := by
  induction l with
  | nil => cases h
  | cons b l ih =>
      rw [List.foldr_cons]
      rcases List.mem_cons.mp h with rfl | h
      · omega
      · have := ih h
        omega

/-- Always one past the highest address ever used. -/
def bump : Allocator where
  pick used past := (used ++ past).foldr max 0 + 1
  fresh _ past h :=
    Nat.lt_irrefl _ (lt_foldr_max_succ _ (List.mem_append_left past h))

/-- Nothing that was handed out is that high. -/
theorem bump_noReuse : bump.NoReuse := fun _ _ h =>
  Nat.lt_irrefl _ (lt_foldr_max_succ _ (List.mem_append_right _ h))

/-- The address freed last is handed out again first. -/
def recycle : Allocator where
  pick used past :=
    match past.find? (fun a => a ∉ used) with
    | some a => a
    | none => bump.pick used past
  fresh used past := by
    split
    case h_1 a h => simpa using List.find?_some h
    case h_2 => exact bump.fresh used past

end Allocator

/-- The live cells, and every address handed out so far. -/
structure Heap (α : Type) where
  cells : AList fun _ : Nat => α
  past : List Nat
  live_past : ∀ a, a ∈ cells → a ∈ past

namespace Heap

variable {α : Type}

/-- No cells, and none handed out. -/
def empty : Heap α where
  cells := ∅
  past := []
  live_past a h := absurd h (AList.notMem_empty a)

/-- The cell at an address, if it is live. -/
def get (h : Heap α) (a : Nat) : Option α := h.cells.lookup a

/-- The address the next allocation gets. -/
def next (A : Allocator) (h : Heap α) : Nat := A.pick h.cells.keys h.past

/-- A new cell at address `a`. -/
def place (h : Heap α) (a : Nat) (x : α) : Heap α where
  cells := h.cells.insert a x
  past := a :: h.past
  live_past b hb := by
    rcases (AList.mem_insert _).mp hb with rfl | hb
    · exact List.mem_cons_self
    · exact List.mem_cons_of_mem _ (h.live_past b hb)

def modifyCells (cells : AList fun _ : Nat => α) (a : Nat) (f : α → α) :
    AList fun _ : Nat => α :=
  match cells.lookup a with
  | some x => cells.insert a (f x)
  | none => cells

theorem mem_modifyCells {cells : AList fun _ : Nat => α} {a b : Nat}
    {f : α → α} (hb : b ∈ modifyCells cells a f) : b ∈ cells := by
  unfold modifyCells at hb
  cases hx : cells.lookup a with
  | none => rwa [hx] at hb
  | some x =>
      rw [hx] at hb
      rcases (AList.mem_insert _).mp hb with rfl | hb
      · exact AList.lookup_isSome.mp (by rw [hx]; rfl)
      · exact hb

/-- Change the cell at `a`, if it is live. -/
def modify (h : Heap α) (a : Nat) (f : α → α) : Heap α where
  cells := modifyCells h.cells a f
  past := h.past
  live_past b hb := h.live_past b (mem_modifyCells hb)

/-- The cell is gone; its address has been used. -/
def free (h : Heap α) (a : Nat) : Heap α where
  cells := h.cells.erase a
  past := h.past
  live_past b hb := h.live_past b (AList.mem_erase.mp hb).2

/-- How many live cells satisfy `p`. -/
def count (p : α → Bool) (h : Heap α) : Nat :=
  h.cells.entries.countP fun e => p e.2

-- ============================================================ reading

@[simp] theorem get_empty (a : Nat) : (empty : Heap α).get a = none := rfl

@[simp] theorem past_place (h : Heap α) (a : Nat) (x : α) :
    (h.place a x).past = a :: h.past := rfl

@[simp] theorem past_modify (h : Heap α) (a : Nat) (f : α → α) :
    (h.modify a f).past = h.past := rfl

@[simp] theorem past_free (h : Heap α) (a : Nat) :
    (h.free a).past = h.past := rfl

/-- What is where after an allocation, -/
theorem get_place (h : Heap α) (a b : Nat) (x : α) :
    (h.place a x).get b = if b = a then some x else h.get b := by
  by_cases hb : b = a
  · rw [if_pos hb, hb]
    exact AList.lookup_insert _
  · rw [if_neg hb]
    exact AList.lookup_insert_ne hb

@[simp] theorem get_place_self (h : Heap α) (a : Nat) (x : α) :
    (h.place a x).get a = some x := by
  rw [get_place, if_pos rfl]

/-- after a change, -/
theorem get_modify (h : Heap α) (a b : Nat) (f : α → α) :
    (h.modify a f).get b = if b = a then (h.get b).map f else h.get b := by
  show (modifyCells h.cells a f).lookup b
    = if b = a then (h.cells.lookup b).map f else h.cells.lookup b
  unfold modifyCells
  cases hx : h.cells.lookup a with
  | some x =>
      by_cases hb : b = a
      · rw [if_pos hb, hb, hx]
        exact AList.lookup_insert _
      · rw [if_neg hb]
        exact AList.lookup_insert_ne hb
  | none =>
      by_cases hb : b = a
      · rw [if_pos hb, hb, hx]
        rfl
      · rw [if_neg hb]

@[simp] theorem get_modify_self (h : Heap α) (a : Nat) (f : α → α) :
    (h.modify a f).get a = (h.get a).map f := by
  rw [get_modify, if_pos rfl]

theorem get_modify_ne (h : Heap α) {a b : Nat} (f : α → α) (hb : b ≠ a) :
    (h.modify a f).get b = h.get b := by
  rw [get_modify, if_neg hb]

/-- A cell that has a successor in the changed heap had one before. -/
theorem get_modify_isSome (h : Heap α) (a b : Nat) (f : α → α) :
    ((h.modify a f).get b).isSome = (h.get b).isSome := by
  rw [get_modify]
  split
  · exact Option.isSome_map
  · rfl

/-- and after a free. -/
theorem get_free (h : Heap α) (a b : Nat) :
    (h.free a).get b = if b = a then none else h.get b := by
  by_cases hb : b = a
  · rw [if_pos hb, hb]
    exact AList.lookup_erase _ _
  · rw [if_neg hb]
    exact AList.lookup_erase_ne hb

theorem mem_cells_iff (h : Heap α) (a : Nat) :
    a ∈ h.cells ↔ (h.get a).isSome = true :=
  AList.lookup_isSome.symm

/-- A live address was handed out. -/
theorem mem_past_of_get {h : Heap α} {a : Nat} {x : α}
    (hx : h.get a = some x) : a ∈ h.past :=
  h.live_past a ((h.mem_cells_iff a).mpr (by rw [hx]; rfl))

/-- A new address is not live. -/
theorem get_next (A : Allocator) (h : Heap α) :
    h.get (h.next A) = none := by
  refine AList.lookup_eq_none.mpr fun hm => ?_
  exact A.fresh _ _ (AList.mem_keys.mp hm)

/-- So it is not the next one. -/
theorem ne_next_of_get {A : Allocator} {h : Heap α} {a : Nat} {x : α}
    (hx : h.get a = some x) : a ≠ h.next A := by
  intro ha
  rw [ha, h.get_next A] at hx
  cases hx

-- ============================================================= reuse

/-- Between the two heaps no address was handed out a second time. -/
structure Fresh (h h' : Heap α) : Prop where
  past : ∀ {a}, a ∈ h.past → a ∈ h'.past
  new : ∀ {a}, h.get a = none → (h'.get a).isSome = true → a ∉ h.past

theorem Fresh.refl (h : Heap α) : Fresh h h where
  past ha := ha
  new ha ha' := by rw [ha] at ha'; cases ha'

/-- No address twice in two parts, none twice in the whole. -/
theorem Fresh.trans {h h' h'' : Heap α} (h₁ : Fresh h h')
    (h₂ : Fresh h' h'') : Fresh h h'' where
  past ha := h₂.past (h₁.past ha)
  new {a} ha ha' hp := by
    cases hm : h'.get a with
    | none => exact h₂.new hm ha' (h₁.past hp)
    | some x => exact h₁.new ha (by rw [hm]; rfl) hp

/-- This is what `NoReuse` is for. -/
theorem Fresh.place {A : Allocator} (hA : A.NoReuse) (h : Heap α) (x : α) :
    Fresh h (h.place (h.next A) x) where
  past ha := List.mem_cons_of_mem _ ha
  new {a} ha ha' := by
    rw [get_place] at ha'
    split at ha'
    case isTrue heq =>
      rw [heq]
      exact hA _ _
    case isFalse =>
      rw [ha] at ha'
      cases ha'

/-- A change allocates nothing. -/
theorem Fresh.modify (h : Heap α) (a : Nat) (f : α → α) :
    Fresh h (h.modify a f) where
  past ha := ha
  new ha ha' := by
    rw [get_modify_isSome, ha] at ha'
    cases ha'

theorem Fresh.free (h : Heap α) (a : Nat) : Fresh h (h.free a) where
  past ha := ha
  new ha ha' := by
    rw [get_free, ha] at ha'
    split at ha' <;> cases ha'

-- =========================================================== counting

@[simp] theorem count_empty (p : α → Bool) : count p empty = 0 := rfl

/-- One address has at most one cell. -/
theorem countP_kerase (p : α → Bool) (a : Nat)
    (l : List (Sigma fun _ : Nat => α)) :
    (l.kerase a).countP (fun e => p e.2)
        + (if (l.dlookup a).any p then 1 else 0)
      = l.countP fun e => p e.2 := by
  induction l with
  | nil => rfl
  | cons e l ih =>
      by_cases ha : a = e.1
      · obtain ⟨b, x⟩ := e
        rw [List.kerase_cons_eq ha, List.countP_cons, show a = b from ha,
          List.dlookup_cons_eq]
        rfl
      · obtain ⟨b, x⟩ := e
        rw [List.kerase_cons_ne ha, List.dlookup_cons_ne _ _ ha,
          List.countP_cons, List.countP_cons]
        omega

/-- A free takes what was there out of the count. -/
theorem count_free (p : α → Bool) (h : Heap α) (a : Nat) :
    (h.free a).count p + (if (h.get a).any p then 1 else 0) = h.count p :=
  countP_kerase p a h.cells.entries

/-- An allocation adds what is placed. -/
theorem count_place (p : α → Bool) {h : Heap α} {a : Nat} (x : α)
    (ha : h.get a = none) :
    (h.place a x).count p = h.count p + (if p x then 1 else 0) := by
  have hn : a ∉ h.cells := AList.lookup_eq_none.mp ha
  show List.countP _ (h.cells.insert a x).entries = _
  rw [AList.entries_insert_of_notMem hn, List.countP_cons]
  rfl

/-- A change takes out what was there and adds what is there. -/
theorem count_modify (p : α → Bool) (h : Heap α) (a : Nat) (f : α → α) :
    (h.modify a f).count p + (if (h.get a).any p then 1 else 0)
      = h.count p + (if ((h.get a).map f).any p then 1 else 0) := by
  have hk := countP_kerase p a h.cells.entries
  show (modifyCells h.cells a f).entries.countP _
      + (if (h.cells.lookup a).any p then 1 else 0)
    = h.cells.entries.countP _
      + (if ((h.cells.lookup a).map f).any p then 1 else 0)
  unfold modifyCells
  cases hx : h.cells.lookup a with
  | none => rfl
  | some x =>
      rw [show List.dlookup a h.cells.entries = some x from hx] at hk
      simp only [AList.entries_insert, List.countP_cons, Option.map_some,
        Option.any_some] at hk ⊢
      omega

/-- A change that `p` does not see leaves the count. -/
theorem count_modify_of_eq (p : α → Bool) {h : Heap α} {a : Nat}
    {f : α → α} (hf : ∀ x, p (f x) = p x) :
    (h.modify a f).count p = h.count p := by
  have hc := count_modify p h a f
  have : ((h.get a).map f).any p = (h.get a).any p := by
    cases h.get a with
    | none => rfl
    | some x => exact hf x
  rw [this] at hc
  omega

/-- A cell that is there counts. -/
theorem count_pos {p : α → Bool} {h : Heap α} {a : Nat} {x : α}
    (hx : h.get a = some x) (hp : p x = true) : 0 < h.count p := by
  have hc := count_free p h a
  rw [hx, Option.any_some, hp] at hc
  simp only [if_true] at hc
  omega

theorem count_eq_zero {p : α → Bool} {h : Heap α}
    (hp : ∀ {a x}, h.get a = some x → p x = false) : h.count p = 0 := by
  refine List.countP_eq_zero.mpr fun e he => ?_
  have hx : h.get e.1 = some e.2 :=
    (List.mem_dlookup_iff h.cells.nodupKeys).mpr he
  rw [hp hx]
  exact Bool.false_ne_true

end Heap

end PmmpThread.Zend
