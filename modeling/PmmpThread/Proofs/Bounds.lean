/-
The cached bounds of a store: `props.first` and `props.last` are raw
slot numbers that survive other operations, so each of them is right
only while nothing moved the slot it names.

# What holds

- `first` is always the first live slot (`FirstInv`). Every operation
  that could move that slot either recomputes it or throws it away; an
  append keeps it only when it is slot 0, which a compaction does not
  move. So shift, chunk and reset are what they would be without the
  cache.
- `last` is not. An append moves it forward by one live slot, which is
  the new entry only when the insertion put that entry into a new slot
  and left the old ones where they were. The rehash guard in
  `pmmpthread_store_write` looks at `first` alone, so with `first`
  unset (or at 0) a compacting append leaves `last` past the end of the
  table, and the pop after it returns null from a non-empty table.

# The argument

`LastBound` says that a cached `last` is never below the last used
slot; it survives every operation, the compacting append included, and
is what keeps a wrong `last` from doing more than hide entries from
pop: `first` stays right even then. `LastInv`, that `last` is exactly
the last used slot, survives every operation but an append that is not
`AppendKeepsLast`, and is lost by every one of those.
-/
import PmmpThread.Model.Store

namespace PmmpThread.Model.Store

open Zend Zend.HashTable

variable {V : Type}

-- ==================================================== the invariants

/-- A cached `first` is the first live slot. -/
def FirstInv (s : Store V) : Prop :=
  ∀ f, s.first = some f → s.hash.entries ≠ [] ∧ f = s.hash.getValidPos 0

/-- A cached `last` is not below the last used slot. -/
def LastBound (s : Store V) : Prop :=
  ∀ l, s.last = some l → s.hash.numUsed ≤ l + 1

/-- A cached `last` is the last used slot. -/
def LastInv (s : Store V) : Prop :=
  ∀ l, s.last = some l → s.hash.numUsed = l + 1

/-- The facts about the bounds that every run keeps. -/
structure BoundsInv (s : Store V) : Prop where
  first : FirstInv s
  last : LastBound s

theorem LastInv.bound {s : Store V} (h : LastInv s) : LastBound s :=
  fun l hl => Nat.le_of_eq (h l hl)

theorem firstInv_of_none {s : Store V} (h : s.first = none) : FirstInv s := by
  intro f hf
  rw [h] at hf
  cases hf

theorem lastInv_of_none {s : Store V} (h : s.last = none) : LastInv s := by
  intro l hl
  rw [h] at hl
  cases hl

/-- Throwing the bounds away satisfies everything. -/
theorem boundsInv_invalidate (s : Store V) : BoundsInv s.invalidateBounds :=
  ⟨firstInv_of_none rfl, (lastInv_of_none rfl).bound⟩

theorem numElements_one_iff {t : HashTable V} {e : Key × V}
    {rest : List (Key × V)} (h : t.entries = e :: rest) :
    t.numElements = 1 ↔ rest = [] := by
  unfold numElements
  rw [h, List.length_cons]
  refine ⟨fun hl => List.length_eq_zero_iff.mp (by omega), fun hr => ?_⟩
  rw [hr]
  rfl

-- ============================================== taking from the front

/-- The position shift, chunk and reset start from. -/
theorem firstPos_eq {s : Store V} (h : FirstInv s) :
    s.firstPos = s.hash.getValidPos 0 := by
  unfold firstPos
  cases hf : s.first with
  | none => rfl
  | some f => exact (h f hf).2

/-- The store after its first entry `e` was taken. -/
def takeFirst (s : Store V) (e : Key × V) : Store V :=
  { (s.advanceFirst (s.hash.getValidPos 0)).2 with hash := s.hash.del e.1 }

/-- Taking the first entry keeps `first` on the first entry and does
not touch `last` unless the table ends up empty. -/
theorem takeFirst_spec {s : Store V} {e : Key × V} {rest : List (Key × V)}
    (h : s.hash.entries = e :: rest) :
    (s.takeFirst e).hash.entries = rest
      ∧ FirstInv (s.takeFirst e)
      ∧ (LastBound s → LastBound (s.takeFirst e))
      ∧ (LastInv s → LastInv (s.takeFirst e))
      ∧ (rest ≠ [] → (s.advanceFirst (s.hash.getValidPos 0)).1
          = (s.takeFirst e).hash.getValidPos 0) := by
  have hent : (s.takeFirst e).hash.entries = rest := entries_del_first h
  refine ⟨hent, ?_⟩
  by_cases hr : rest = []
  · have hone := (numElements_one_iff h).mpr hr
    have hadv : (s.advanceFirst (s.hash.getValidPos 0)).2
        = s.invalidateBounds := by
      unfold advanceFirst
      rw [if_pos hone]
    have hf : (s.takeFirst e).first = none := by
      unfold takeFirst
      rw [hadv]
      rfl
    have hl : (s.takeFirst e).last = none := by
      unfold takeFirst
      rw [hadv]
      rfl
    exact ⟨firstInv_of_none hf, fun _ => (lastInv_of_none hl).bound,
      fun _ => lastInv_of_none hl, fun hne => absurd hr hne⟩
  · have hone : ¬ s.hash.numElements = 1 := fun h1 =>
      hr ((numElements_one_iff h).mp h1)
    obtain ⟨hmove, hused⟩ := moveForward_first h hr
    have hadv : s.advanceFirst (s.hash.getValidPos 0)
        = ((s.hash.del e.1).getValidPos 0,
          { s with first := some ((s.hash.del e.1).getValidPos 0) }) := by
      unfold advanceFirst
      rw [if_neg hone, hmove]
      rfl
    have hf : (s.takeFirst e).first
        = some ((s.takeFirst e).hash.getValidPos 0) := by
      unfold takeFirst
      rw [hadv]
    have hl : (s.takeFirst e).last = s.last := by
      unfold takeFirst
      rw [hadv]
    refine ⟨?_, ?_, ?_, ?_⟩
    · intro f hf'
      rw [hf] at hf'
      injection hf' with hf'
      exact ⟨by rw [hent]; exact hr, hf'.symm⟩
    · intro hb l hl'
      rw [hl] at hl'
      show (s.hash.del e.1).numUsed ≤ l + 1
      rw [hused]
      exact hb l hl'
    · intro hb l hl'
      rw [hl] at hl'
      show (s.hash.del e.1).numUsed = l + 1
      rw [hused]
      exact hb l hl'
    · intro _
      rw [hadv]
      rfl

theorem shift_of_nil {s : Store V} (hf : FirstInv s)
    (h : s.hash.entries = []) : s.shift = (none, s) := by
  unfold shift
  rw [firstPos_eq hf, getCurrent_getValidPos_zero, h]
  rfl

theorem shift_of_cons {s : Store V} (hf : FirstInv s) {e : Key × V}
    {rest : List (Key × V)} (h : s.hash.entries = e :: rest) :
    s.shift = (some e, s.takeFirst e) := by
  unfold shift
  rw [firstPos_eq hf, getCurrent_getValidPos_zero, h]
  rfl

/-- What shift returns and leaves, in table order. -/
theorem shift_spec {s : Store V} (hf : FirstInv s) :
    s.shift.1 = s.hash.entries.head?
      ∧ s.shift.2.hash.entries = s.hash.entries.tail := by
  cases h : s.hash.entries with
  | nil => rw [shift_of_nil hf h]; exact ⟨rfl, h⟩
  | cons e rest =>
      rw [shift_of_cons hf h]
      exact ⟨rfl, (takeFirst_spec h).1⟩

-- ===================================================== the chunk loop

/-- The loop takes the first `n` entries from any position that denotes
the first one, and keeps every fact about the bounds. -/
theorem chunkLoop_spec (n : Nat) :
    ∀ (s : Store V) (pos : Nat), FirstInv s →
      (s.hash.entries ≠ [] → pos = s.hash.getValidPos 0) →
      (chunkLoop n pos s).1 = s.hash.entries.take n
        ∧ (chunkLoop n pos s).2.hash.entries = s.hash.entries.drop n
        ∧ FirstInv (chunkLoop n pos s).2
        ∧ (LastBound s → LastBound (chunkLoop n pos s).2)
        ∧ (LastInv s → LastInv (chunkLoop n pos s).2) := by
  induction n with
  | zero =>
      intro s pos hf _
      exact ⟨rfl, rfl, hf, fun h => h, fun h => h⟩
  | succ n ih =>
      intro s pos hf hpos
      cases h : s.hash.entries with
      | nil =>
          have hcur : s.hash.getCurrent pos = none := by
            refine getCurrent_of_le ?_
            rw [numUsed, slots_eq_nil_iff.mpr h]
            exact Nat.zero_le _
          have hloop : chunkLoop (n + 1) pos s = ([], s) := by
            rw [chunkLoop, hcur]
          rw [hloop]
          exact ⟨rfl, by simpa using h, hf, fun h => h, fun h => h⟩
      | cons e rest =>
          have hp : pos = s.hash.getValidPos 0 :=
            hpos (by rw [h]; exact List.cons_ne_nil _ _)
          have hcur : s.hash.getCurrent pos = some e := by
            rw [hp, getCurrent_getValidPos_zero, h]
            rfl
          obtain ⟨hent, hf', hb', hl', hnext⟩ := takeFirst_spec h
          have hloop : chunkLoop (n + 1) pos s
              = (e :: (chunkLoop n (s.advanceFirst pos).1 (s.takeFirst e)).1,
                (chunkLoop n (s.advanceFirst pos).1 (s.takeFirst e)).2) := by
            rw [chunkLoop, hcur, hp]
            rfl
          obtain ⟨h1, h2, h3, h4, h5⟩ := ih (s.takeFirst e)
            (s.advanceFirst pos).1 hf' (by
              rw [hent, hp]
              exact hnext)
          rw [hloop, hent] at *
          exact ⟨by rw [h1]; rfl, h2, h3, fun hb => h4 (hb' hb),
            fun hl => h5 (hl' hl)⟩

/-- The loop's outcome depends on the table alone, not on the cache. -/
theorem chunkLoop_hash_congr (n : Nat) :
    ∀ (s s' : Store V) (pos : Nat), s.hash = s'.hash →
      (chunkLoop n pos s).1 = (chunkLoop n pos s').1
        ∧ (chunkLoop n pos s).2.hash = (chunkLoop n pos s').2.hash := by
  induction n with
  | zero => intro s s' pos h; exact ⟨rfl, h⟩
  | succ n ih =>
      intro s s' pos h
      rw [chunkLoop, chunkLoop, ← h]
      cases s.hash.getCurrent pos with
      | none => exact ⟨rfl, h⟩
      | some e =>
          have hpos : (s.advanceFirst pos).1 = (s'.advanceFirst pos).1 := by
            unfold advanceFirst
            rw [← h]
            split <;> rfl
          obtain ⟨h1, h2⟩ := ih
            { (s.advanceFirst pos).2 with hash := s.hash.del e.1 }
            { (s'.advanceFirst pos).2 with hash := s.hash.del e.1 }
            (s.advanceFirst pos).1 rfl
          rw [hpos] at h1 h2
          exact ⟨by simp only [hpos, h1], by simp only [hpos, h2]⟩

theorem chunk_spec {s : Store V} (hf : FirstInv s) (size : Int) :
    (s.chunk size).1 = s.hash.entries.take size.toNat
      ∧ (s.chunk size).2.hash.entries = s.hash.entries.drop size.toNat
      ∧ FirstInv (s.chunk size).2
      ∧ (LastBound s → LastBound (s.chunk size).2)
      ∧ (LastInv s → LastInv (s.chunk size).2) :=
  chunkLoop_spec size.toNat s _ hf fun _ => firstPos_eq hf

-- =============================================== taking from the back

/-- With `last` right, pop reads the last entry. -/
theorem lastPos_current {s : Store V} (h : LastInv s) :
    s.hash.getCurrent s.lastPos = s.hash.entries.getLast? := by
  unfold lastPos
  cases hl : s.last with
  | some l =>
      have := h l hl
      rw [Option.getD_some, ← getCurrent_last]
      congr 1
      omega
  | none =>
      rw [Option.getD_none]
      by_cases hne : s.hash.slots = []
      · rw [slots_eq_nil_iff.mp hne]
        refine getCurrent_of_le ?_
        rw [numUsed, hne]
        exact Nat.zero_le _
      · rw [internalPointerEnd_eq hne, getCurrent_last]

/-- The store after its last entry `e` was taken. -/
def takeLast (s : Store V) (e : Key × V) : Store V :=
  { s.retreatLast (s.hash.numUsed - 1) with hash := s.hash.del e.1 }

theorem numElements_concat {t : HashTable V} {e : Key × V}
    {init : List (Key × V)} (h : t.entries = init ++ [e]) :
    t.numElements = 1 ↔ init = [] := by
  unfold numElements
  rw [h, List.length_append, List.length_singleton]
  refine ⟨fun hl => List.length_eq_zero_iff.mp (by omega), fun hi => ?_⟩
  rw [hi]
  rfl

/-- Taking the last entry keeps both bounds right. -/
theorem takeLast_spec {s : Store V} {e : Key × V} {init : List (Key × V)}
    (h : s.hash.entries = init ++ [e]) :
    (s.takeLast e).hash.entries = init
      ∧ LastInv (s.takeLast e)
      ∧ (FirstInv s → FirstInv (s.takeLast e)) := by
  have hent : (s.takeLast e).hash.entries = init := entries_del_last h
  refine ⟨hent, ?_⟩
  by_cases hi : init = []
  · have hone := (numElements_concat h).mpr hi
    have hret : s.retreatLast (s.hash.numUsed - 1) = s.invalidateBounds := by
      unfold retreatLast
      rw [if_pos hone]
    have hf : (s.takeLast e).first = none := by
      unfold takeLast
      rw [hret]
      rfl
    have hl : (s.takeLast e).last = none := by
      unfold takeLast
      rw [hret]
      rfl
    exact ⟨lastInv_of_none hl, fun _ => firstInv_of_none hf⟩
  · have hone : ¬ s.hash.numElements = 1 := fun h1 =>
      hi ((numElements_concat h).mp h1)
    obtain ⟨init', f, hinit⟩ :=
      (List.eq_nil_or_concat' init).resolve_left hi
    have hcc : s.hash.entries = init' ++ [f, e] := by
      rw [h, hinit]
      simp
    obtain ⟨hmove, hne⟩ := moveBackwards_last hcc
    have hret : s.retreatLast (s.hash.numUsed - 1)
        = { s with last := some ((s.hash.del e.1).numUsed - 1) } := by
      unfold retreatLast
      rw [if_neg hone, hmove]
      rfl
    have hl : (s.takeLast e).last
        = some ((s.takeLast e).hash.numUsed - 1) := by
      unfold takeLast
      rw [hret]
    have hf : (s.takeLast e).first = s.first := by
      unfold takeLast
      rw [hret]
    refine ⟨?_, ?_⟩
    · intro l hl'
      rw [hl] at hl'
      injection hl' with hl'
      have hne' : (s.takeLast e).hash.numUsed ≠ 0 := hne
      omega
    · intro hfi g hg
      rw [hf] at hg
      obtain ⟨-, hg⟩ := hfi g hg
      refine ⟨by rw [hent]; exact hi, ?_⟩
      obtain ⟨e₀, rest, he₀⟩ := List.exists_cons_of_ne_nil hi
      have hcons : s.hash.entries = e₀ :: (rest ++ [e]) := by
        rw [h, he₀]
        rfl
      have hk : e.1 ≠ e₀.1 := by
        intro hk
        refine nodup_head hcons ?_
        rw [← hk]
        exact List.mem_map.mpr ⟨e, by simp, rfl⟩
      rw [hg]
      exact (getValidPos_zero_del_ne hcons hk).symm

theorem pop_of_nil {s : Store V} (hl : LastInv s)
    (h : s.hash.entries = []) : s.pop = (none, s) := by
  unfold pop
  rw [lastPos_current hl, h]
  rfl

/-- Where pop starts when `last` is right and the table is not empty. -/
theorem lastPos_eq {s : Store V} (h : LastInv s) (hne : s.hash.entries ≠ []) :
    s.lastPos = s.hash.numUsed - 1 := by
  unfold lastPos
  cases hl : s.last with
  | some l =>
      have := h l hl
      rw [Option.getD_some]
      omega
  | none =>
      exact internalPointerEnd_eq fun h0 => hne (slots_eq_nil_iff.mp h0)

theorem pop_of_concat {s : Store V} (hl : LastInv s) {e : Key × V}
    {init : List (Key × V)} (h : s.hash.entries = init ++ [e]) :
    s.pop = (some e, s.takeLast e) := by
  unfold pop
  rw [lastPos_current hl, lastPos_eq hl (by rw [h]; simp), h]
  simp only [List.getLast?_append, List.getLast?_singleton, Option.some_or]
  rfl

/-- A `last` past the end hides every entry from pop. -/
theorem pop_of_past {s : Store V} {l : Nat} (hl : s.last = some l)
    (h : s.hash.numUsed ≤ l) : s.pop = (none, s) := by
  unfold pop lastPos
  rw [hl, Option.getD_some, getCurrent_of_le h]

/-- What pop returns and leaves when `last` is right, in table order. -/
theorem pop_spec {s : Store V} (hl : LastInv s) :
    s.pop.1 = s.hash.entries.getLast?
      ∧ s.pop.2.hash.entries = s.hash.entries.dropLast := by
  rcases List.eq_nil_or_concat' s.hash.entries with h | ⟨init, e, h⟩
  · rw [pop_of_nil hl h]
    exact ⟨by rw [h]; rfl, by rw [h]; rfl⟩
  · rw [pop_of_concat hl h, h]
    exact ⟨by simp, by rw [(takeLast_spec h).1]; simp⟩

-- ============================================================ appends

/-- The append leaves a cached `last` right: it drops the bounds, or
puts the entry into a new slot without moving the others. -/
def AppendKeepsLast (s : Store V) (compact : Bool) : Prop :=
  s.last = none ∨ (s.first ≠ none ∧ s.first ≠ some 0)
    ∨ (s.hash.nextKey ∉ s.hash.entries.map Prod.fst
      ∧ s.hash.relocates compact = false)

theorem append_of_first {s : Store V} {v : V} {compact : Bool}
    (h : s.first ≠ none ∧ s.first ≠ some 0) :
    s.write none v compact
      = { s with hash := s.hash.update compact s.hash.nextKey v
          }.invalidateBounds := by
  have hcur : ((s.hash.update compact s.hash.nextKey v).getCurrent 0).isSome
      = true := by
    rw [getCurrent_zero, List.isSome_head?]
    simpa using entries_update_ne_nil compact s.hash s.hash.nextKey v
  unfold write guardRehash
  rw [if_pos ⟨h.1, h.2, hcur⟩]
  rfl

theorem append_of_last {s : Store V} {v : V} {compact : Bool}
    (h : ¬ (s.first ≠ none ∧ s.first ≠ some 0)) {l : Nat}
    (hl : s.last = some l) :
    s.write none v compact
      = { s with
          hash := s.hash.update compact s.hash.nextKey v
          last := some (((s.hash.update compact s.hash.nextKey v).moveForward
            l).getD l) } := by
  unfold write guardRehash
  rw [if_neg fun h' => h ⟨h'.1, h'.2.1⟩]
  unfold moveBounds
  simp only [hl]
  rfl

theorem append_of_none {s : Store V} {v : V} {compact : Bool}
    (h : ¬ (s.first ≠ none ∧ s.first ≠ some 0)) (hl : s.last = none) :
    s.write none v compact
      = { s with hash := s.hash.update compact s.hash.nextKey v } := by
  unfold write guardRehash
  rw [if_neg fun h' => h ⟨h'.1, h'.2.1⟩]
  unfold moveBounds
  simp only [hl]
  rfl

theorem write_hash (s : Store V) (key : Option Key) (v : V) (compact : Bool) :
    (s.write key v compact).hash = s.hash.update compact (s.member key) v := by
  have hg : ∀ u : Store V, u.guardRehash.hash = u.hash := by
    intro u
    unfold guardRehash
    split <;> rfl
  have hm : ∀ u : Store V, (u.moveBounds key).hash = u.hash := by
    intro u
    unfold moveBounds
    split <;> rfl
  unfold write
  rw [hm, hg]

/-- The three shapes an append can take. -/
theorem append_cases (s : Store V) (v : V) (compact : Bool) :
    ((s.first ≠ none ∧ s.first ≠ some 0)
        ∧ s.write none v compact
          = { s with hash := s.hash.update compact s.hash.nextKey v
              }.invalidateBounds)
      ∨ ((s.first = none ∨ s.first = some 0) ∧ s.last = none
        ∧ s.write none v compact
          = { s with hash := s.hash.update compact s.hash.nextKey v })
      ∨ ((s.first = none ∨ s.first = some 0) ∧ ∃ l, s.last = some l
        ∧ s.write none v compact
          = { s with
              hash := s.hash.update compact s.hash.nextKey v
              last := some (((s.hash.update compact
                s.hash.nextKey v).moveForward l).getD l) }) := by
  by_cases h : s.first ≠ none ∧ s.first ≠ some 0
  · exact Or.inl ⟨h, append_of_first h⟩
  · have h' : s.first = none ∨ s.first = some 0 := by
      by_cases hn : s.first = none
      · exact Or.inl hn
      · exact Or.inr (by_contra fun h0 => h ⟨hn, h0⟩)
    by_cases hl : s.last = none
    · exact Or.inr (Or.inl ⟨h', hl, append_of_none h hl⟩)
    · obtain ⟨l, hl⟩ := Option.ne_none_iff_exists'.mp hl
      exact Or.inr (Or.inr ⟨h', l, hl, append_of_last h hl⟩)

/-- Moving forward never goes below the position it starts from, and
past it when it succeeds. -/
theorem moveForward_bound (t : HashTable V) (l : Nat) :
    (t.numUsed ≤ l ∧ (t.moveForward l).getD l = l)
      ∨ l + 1 ≤ (t.moveForward l).getD l := by
  by_cases hlt : l < t.numUsed
  · refine Or.inr ?_
    unfold moveForward
    simp only []
    rw [if_pos (getValidPos_lt hlt), Option.getD_some]
    have h1 := t.le_getValidPos l
    have h2 := t.le_getValidPos (t.getValidPos l + 1)
    omega
  · refine Or.inl ⟨Nat.le_of_not_lt hlt, ?_⟩
    unfold moveForward
    simp only []
    rw [getValidPos_of_le (Nat.le_of_not_lt hlt), if_neg hlt]
    rfl

theorem append_boundsInv {s : Store V} (h : BoundsInv s) (v : V)
    (compact : Bool) : BoundsInv (s.write none v compact) := by
  have hfirst : ∀ {s' : Store V}, (s.first = none ∨ s.first = some 0) →
      s'.hash = s.hash.update compact s.hash.nextKey v →
      s'.first = s.first → FirstInv s' := by
    intro s' h0 hh hf f hf'
    rw [hf] at hf'
    rcases h0 with h0 | h0
    · rw [h0] at hf'
      cases hf'
    · rw [h0] at hf'
      injection hf' with hf'
      obtain ⟨hne, hz⟩ := h.first 0 h0
      rw [hh]
      refine ⟨entries_update_ne_nil compact s.hash s.hash.nextKey v, ?_⟩
      rw [getValidPos_zero_update hne hz.symm]
      exact hf'.symm
  rcases append_cases s v compact with ⟨-, hw⟩ | ⟨h0, hl, hw⟩ | ⟨h0, l, hl, hw⟩
  · rw [hw]
    exact boundsInv_invalidate _
  · rw [hw]
    refine ⟨hfirst h0 rfl rfl, LastInv.bound (lastInv_of_none ?_)⟩
    exact hl
  · rw [hw]
    refine ⟨hfirst h0 rfl rfl, ?_⟩
    intro l' hl'
    injection hl' with hl'
    have hb := h.last l hl
    have hu := numUsed_update_le compact s.hash s.hash.nextKey v
    show (s.hash.update compact s.hash.nextKey v).numUsed ≤ l' + 1
    rcases moveForward_bound
      (s.hash.update compact s.hash.nextKey v) l with ⟨h1, h2⟩ | h1
    · omega
    · omega

/-- An append that does not keep `last` puts it past the end. -/
theorem append_past {s : Store V} (h : LastInv s) {v : V} {compact : Bool}
    (hbad : ¬ AppendKeepsLast s compact) :
    ∃ l, (s.write none v compact).last = some l
      ∧ (s.write none v compact).hash.numUsed ≤ l := by
  have hfirst : ¬ (s.first ≠ none ∧ s.first ≠ some 0) := fun hf =>
    hbad (Or.inr (Or.inl hf))
  have hlast : s.last ≠ none := fun hn => hbad (Or.inl hn)
  obtain ⟨l, hl⟩ := Option.ne_none_iff_exists'.mp hlast
  have hused := h l hl
  rw [append_of_last hfirst hl]
  refine ⟨_, rfl, ?_⟩
  show (s.hash.update compact s.hash.nextKey v).numUsed ≤ _
  -- the insertion took no slot beyond the ones already used
  have hle : (s.hash.update compact s.hash.nextKey v).numUsed ≤ l + 1 := by
    by_cases hk : s.hash.nextKey ∈ s.hash.entries.map Prod.fst
    · rw [update_of_mem hk, numUsed_replace, hused]
    · have hrel : s.hash.relocates compact = true := by
        by_contra hr
        exact hbad (Or.inr (Or.inr ⟨hk, by simpa using hr⟩))
      have hlt : s.hash.numElements < s.hash.numUsed := by
        unfold relocates at hrel
        simp only [Bool.and_eq_true, decide_eq_true_eq] at hrel
        exact hrel.2
      rw [numUsed, slots_update_of_notMem hk, slots_roomFor_of_relocates hrel,
        List.length_append, List.length_map, List.length_singleton]
      have : s.hash.entries.length = s.hash.numElements := rfl
      omega
  rcases moveForward_bound
    (s.hash.update compact s.hash.nextKey v) l with ⟨h1, h2⟩ | h1
  · omega
  · omega

theorem append_lastInv {s : Store V} (h : LastInv s) {v : V} {compact : Bool}
    (hk : AppendKeepsLast s compact) :
    LastInv (s.write none v compact) := by
  rcases append_cases s v compact with ⟨-, hw⟩ | ⟨-, hl, hw⟩ | ⟨h0, l, hl, hw⟩
  · rw [hw]
    exact lastInv_of_none rfl
  · rw [hw]
    exact lastInv_of_none hl
  · rcases hk with hk | hk | ⟨hkey, hrel⟩
    · rw [hl] at hk
      cases hk
    · rcases h0 with h0 | h0
      · exact absurd h0 hk.1
      · exact absurd h0 hk.2
    · have hused := h l hl
      have hslots : (s.hash.update compact s.hash.nextKey v).slots
          = s.hash.slots ++ [some (s.hash.nextKey, v)] := by
        rw [slots_update_of_notMem hkey, slots_roomFor_of_not_relocates hrel]
      have hused' : (s.hash.update compact s.hash.nextKey v).numUsed
          = l + 1 + 1 := by
        rw [numUsed, hslots, List.length_append, List.length_singleton]
        exact congrArg (· + 1) hused
      rw [hw]
      intro l' hl'
      injection hl' with hl'
      show (s.hash.update compact s.hash.nextKey v).numUsed = l' + 1
      -- slot `l` is live, and so is the new slot right behind it
      have hne : s.hash.slots ≠ [] := by
        intro hnil
        rw [numUsed, hnil] at hused
        cases hused
      obtain ⟨m, e, hm⟩ := slots_eq_last hne
      have hmlen : m.length = l := by
        rw [numUsed, hm, List.length_append, List.length_singleton] at hused
        omega
      have hpos : (s.hash.update compact s.hash.nextKey v).getValidPos l
          = l := by
        have := (getValidPos_of_append
          (t := s.hash.update compact s.hash.nextKey v) (l := m) (n := 0)
          (e := e) (m := [some (s.hash.nextKey, v)])
          (by rw [hslots, hm]; simp)).1
        rw [hmlen] at this
        exact this
      have hpos' : (s.hash.update compact s.hash.nextKey v).getValidPos (l + 1)
          = l + 1 := by
        have := (getValidPos_of_append
          (t := s.hash.update compact s.hash.nextKey v) (l := s.hash.slots)
          (n := 0) (e := (s.hash.nextKey, v)) (m := [])
          (by rw [hslots]; simp)).1
        rw [show s.hash.slots.length = l + 1 from hused] at this
        exact this
      have hmove : (s.hash.update compact s.hash.nextKey v).moveForward l
          = some (l + 1) := by
        unfold moveForward
        simp only []
        rw [hpos, if_pos (by omega), hpos']
      rw [hmove, Option.getD_some] at hl'
      omega

-- ======================================================== every call

theorem reset_spec {s : Store V} (hf : FirstInv s) :
    s.reset.1 = (if s.hash.entries = [] then none
        else some (s.hash.getValidPos 0))
      ∧ s.reset.2.hash = s.hash ∧ s.reset.2.last = s.last
      ∧ FirstInv s.reset.2 := by
  unfold reset
  cases hff : s.first with
  | some f =>
      obtain ⟨hne, hz⟩ := hf f hff
      rw [if_neg hne, hz]
      exact ⟨rfl, rfl, rfl, hf⟩
  | none =>
      have hcur : s.hash.hasMoreElements s.hash.internalPointerReset
          = s.hash.entries.head?.isSome := by
        unfold hasMoreElements internalPointerReset
        rw [getCurrent_getValidPos_zero]
      simp only [hcur]
      cases he : s.hash.entries with
      | nil => exact ⟨rfl, rfl, rfl, hf⟩
      | cons e rest =>
          refine ⟨rfl, rfl, rfl, ?_⟩
          intro f hf'
          injection hf' with hf'
          refine ⟨?_, hf'.symm⟩
          show s.hash.entries ≠ []
          rw [he]
          exact List.cons_ne_nil _ _

/-- A keyed write, a delete and a merge throw the bounds away. -/
theorem write_some_bounds (s : Store V) (k : Key) (v : V) (compact : Bool) :
    (s.write (some k) v compact).first = none
      ∧ (s.write (some k) v compact).last = none := by
  unfold write
  exact ⟨rfl, rfl⟩

/-- With `last` at or past its slot, pop takes the last entry or
nothing. -/
theorem pop_cases {s : Store V} (h : LastBound s) :
    LastInv s ∨ s.pop = (none, s) := by
  cases hl : s.last with
  | none => exact Or.inl (lastInv_of_none hl)
  | some l =>
      have hb := h l hl
      by_cases he : s.hash.numUsed = l + 1
      · refine Or.inl fun l' hl' => ?_
        rw [hl] at hl'
        injection hl' with hl'
        omega
      · exact Or.inr (pop_of_past hl (by omega))

theorem apply_boundsInv {s : Store V} (h : BoundsInv s) (op : Op V) :
    BoundsInv (s.apply op) := by
  cases op with
  | write k v compact =>
      obtain ⟨hf, hl⟩ := write_some_bounds s k v compact
      exact ⟨firstInv_of_none hf, (lastInv_of_none hl).bound⟩
  | append v compact => exact append_boundsInv h v compact
  | delete k => exact boundsInv_invalidate _
  | merge src overwrite compact => exact boundsInv_invalidate _
  | chunk size =>
      obtain ⟨-, -, hf, hb, -⟩ := chunk_spec h.first size
      exact ⟨hf, hb h.last⟩
  | reset =>
      obtain ⟨-, hh, hl, hf⟩ := reset_spec h.first
      refine ⟨hf, fun l hl' => ?_⟩
      show s.reset.2.hash.numUsed ≤ l + 1
      rw [hh]
      exact h.last l (hl ▸ hl')
  | shift =>
      show BoundsInv s.shift.2
      cases he : s.hash.entries with
      | nil => rw [shift_of_nil h.first he]; exact h
      | cons e rest =>
          obtain ⟨-, hf, hb, -⟩ := takeFirst_spec he
          rw [shift_of_cons h.first he]
          exact ⟨hf, hb h.last⟩
  | pop =>
      show BoundsInv s.pop.2
      rcases pop_cases h.last with hl | hp
      · rcases List.eq_nil_or_concat' s.hash.entries with he | ⟨init, e, he⟩
        · rw [pop_of_nil hl he]
          exact h
        · obtain ⟨-, hl', hf'⟩ := takeLast_spec he
          rw [pop_of_concat hl he]
          exact ⟨hf' h.first, hl'.bound⟩
      · rw [hp]
        exact h

theorem run_boundsInv {s : Store V} (h : BoundsInv s) (ops : List (Op V)) :
    BoundsInv (s.run ops) := by
  induction ops generalizing s with
  | nil => exact h
  | cons op ops ih => exact ih (apply_boundsInv h op)

theorem boundsInv_init : BoundsInv (init : Store V) :=
  ⟨firstInv_of_none rfl, (lastInv_of_none rfl).bound⟩

-- =========================================== first, for every sequence

/-- After every sequence of calls, shift, chunk and reset do what the
table's order says, and exactly what they do when the cached `first`
is thrown away first. -/
theorem run_first_exact (ops : List (Op V)) (size : Int) :
    let s := init.run ops
    let u := { s with first := none }
    (s.shift.1 = s.hash.entries.head?
      ∧ s.shift.2.hash.entries = s.hash.entries.tail
      ∧ s.shift.1 = u.shift.1 ∧ s.shift.2.hash = u.shift.2.hash)
    ∧ ((s.chunk size).1
        = s.hash.entries.take (min (max size 0).toNat s.hash.numElements)
      ∧ (s.chunk size).2.hash.entries
        = s.hash.entries.drop (min (max size 0).toNat s.hash.numElements)
      ∧ (s.chunk size).1 = (u.chunk size).1
      ∧ (s.chunk size).2.hash = (u.chunk size).2.hash)
    ∧ (s.reset.1 = (if s.hash.entries = [] then none
          else some (s.hash.getValidPos 0))
      ∧ s.reset.2.hash = s.hash ∧ s.reset.1 = u.reset.1) := by
  intro s u
  have hf : FirstInv s := (run_boundsInv boundsInv_init ops).first
  have hu : FirstInv u := firstInv_of_none rfl
  refine ⟨⟨(shift_spec hf).1, (shift_spec hf).2, ?_, ?_⟩, ⟨?_, ?_, ?_, ?_⟩,
    (reset_spec hf).1, (reset_spec hf).2.1, ?_⟩
  · rw [(shift_spec hf).1, (shift_spec hu).1]
  · cases he : s.hash.entries with
    | nil => rw [shift_of_nil hf he, shift_of_nil hu he]
    | cons e rest =>
        rw [shift_of_cons hf he, shift_of_cons hu he]
        rfl
  · have hmax : (max size 0).toNat = size.toNat := by omega
    rw [(chunk_spec hf size).1, hmax]
    exact (List.take_eq_take_min ..)
  · have hmax : (max size 0).toNat = size.toNat := by omega
    rw [(chunk_spec hf size).2.1, hmax]
    exact (List.drop_eq_drop_min ..)
  · unfold chunk
    rw [firstPos_eq hf, firstPos_eq hu]
    exact (chunkLoop_hash_congr _ s u _ rfl).1
  · unfold chunk
    rw [firstPos_eq hf, firstPos_eq hu]
    exact (chunkLoop_hash_congr _ s u _ rfl).2
  · rw [(reset_spec hf).1, (reset_spec hu).1]

-- ============================================ last, for every sequence

/-- Pop takes the last entry in table order, exactly as it does when
the cached `last` is thrown away first. -/
def PopExact (s : Store V) : Prop :=
  s.pop.1 = s.hash.entries.getLast?
    ∧ s.pop.2.hash.entries = s.hash.entries.dropLast
    ∧ s.pop.1 = { s with last := none }.pop.1
    ∧ s.pop.2.hash = { s with last := none }.pop.2.hash

/-- Every append of the sequence meets `AppendKeepsLast` in the store
it is made on. -/
def AppendsKeepLast : Store V → List (Op V) → Prop
  | _, [] => True
  | s, .append v compact :: ops =>
      AppendKeepsLast s compact
        ∧ AppendsKeepLast (s.apply (.append v compact)) ops
  | s, op :: ops => AppendsKeepLast (s.apply op) ops

theorem popExact_of_lastInv {s : Store V} (h : LastInv s) : PopExact s := by
  have hu : LastInv { s with last := none } := lastInv_of_none rfl
  refine ⟨(pop_spec h).1, (pop_spec h).2, ?_, ?_⟩
  · rw [(pop_spec h).1, (pop_spec hu).1]
  · rcases List.eq_nil_or_concat' s.hash.entries with he | ⟨init, e, he⟩
    · rw [pop_of_nil h he, pop_of_nil hu he]
    · rw [pop_of_concat h he, pop_of_concat hu he]
      rfl

theorem not_popExact_of_past {s : Store V} {l : Nat} (hl : s.last = some l)
    (h : s.hash.numUsed ≤ l) (hne : s.hash.entries ≠ []) : ¬ PopExact s := by
  intro hp
  have hnone := hp.1
  rw [pop_of_past hl h] at hnone
  exact hne (List.getLast?_eq_none_iff.mp hnone.symm)

/-- Every call but an append keeps `last` right. -/
theorem apply_lastInv {s : Store V} (hf : FirstInv s) (h : LastInv s)
    (op : Op V) (hop : ∀ v compact, op = .append v compact →
      AppendKeepsLast s compact) : LastInv (s.apply op) := by
  cases op with
  | write k v compact => exact lastInv_of_none (write_some_bounds s k v _).2
  | append v compact => exact append_lastInv h (hop v compact rfl)
  | delete k => exact lastInv_of_none rfl
  | merge src overwrite compact => exact lastInv_of_none rfl
  | chunk size =>
      obtain ⟨-, -, -, -, hl⟩ := chunk_spec hf size
      exact hl h
  | reset =>
      obtain ⟨-, hh, hl, -⟩ := reset_spec hf
      intro l hl'
      show s.reset.2.hash.numUsed = l + 1
      rw [hh]
      exact h l (hl ▸ hl')
  | shift =>
      show LastInv s.shift.2
      cases he : s.hash.entries with
      | nil => rw [shift_of_nil hf he]; exact h
      | cons e rest =>
          obtain ⟨-, -, -, hl, -⟩ := takeFirst_spec he
          rw [shift_of_cons hf he]
          exact hl h
  | pop =>
      show LastInv s.pop.2
      rcases List.eq_nil_or_concat' s.hash.entries with he | ⟨init, e, he⟩
      · rw [pop_of_nil h he]
        exact h
      · rw [pop_of_concat h he]
        exact (takeLast_spec he).2.1

theorem appendsKeepLast_cons {s : Store V} {op : Op V} {ops : List (Op V)} :
    AppendsKeepLast s (op :: ops)
      ↔ (∀ v compact, op = .append v compact → AppendKeepsLast s compact)
        ∧ AppendsKeepLast (s.apply op) ops := by
  cases op with
  | append v compact =>
      refine ⟨fun ⟨h, ht⟩ => ⟨fun v' c' he => ?_, ht⟩,
        fun ⟨h, ht⟩ => ⟨h v compact rfl, ht⟩⟩
      injection he with _ hc
      exact hc ▸ h
  | _ =>
      exact ⟨fun ht => ⟨fun v' c' he => (nomatch he), ht⟩, fun h => h.2⟩

/-- One step of the iff below: from a right `last`, a call leaves it
right when the call meets its condition, and otherwise the very next
pop is wrong. -/
theorem popExact_apply_iff {s : Store V} (hf : FirstInv s) (h : LastInv s)
    (op : Op V) :
    PopExact (s.apply op)
      ↔ ∀ v compact, op = .append v compact → AppendKeepsLast s compact := by
  refine ⟨fun hp v compact he => ?_, fun hop =>
    popExact_of_lastInv (apply_lastInv hf h op hop)⟩
  by_contra hbad
  rw [he] at hp
  obtain ⟨l, hl, hpast⟩ := append_past (v := v) h hbad
  refine not_popExact_of_past hl hpast ?_ hp
  rw [write_hash]
  exact entries_update_ne_nil compact s.hash s.hash.nextKey v

theorem popExact_prefixes_iff (ops : List (Op V)) :
    ∀ {s : Store V}, BoundsInv s → LastInv s →
      ((∀ pre, pre <+: ops → PopExact (s.run pre))
        ↔ AppendsKeepLast s ops) := by
  induction ops with
  | nil =>
      intro s _ hl
      refine ⟨fun _ => trivial, fun _ pre hpre => ?_⟩
      rw [List.prefix_nil.mp hpre]
      exact popExact_of_lastInv hl
  | cons op ops ih =>
      intro s hb hl
      have hstep := popExact_apply_iff hb.first hl op
      rw [appendsKeepLast_cons]
      refine ⟨fun h => ?_, fun ⟨hop, ht⟩ pre hpre => ?_⟩
      · have hop := hstep.mp (h [op] (by simp))
        have hl' := apply_lastInv hb.first hl op hop
        refine ⟨hop, (ih (apply_boundsInv hb op) hl').mp fun pre hpre => ?_⟩
        exact h (op :: pre) ((List.prefix_cons_inj op).mpr hpre)
      · cases pre with
        | nil => exact popExact_of_lastInv hl
        | cons op' pre =>
            obtain ⟨rfl, htail⟩ := List.cons_prefix_cons.mp hpre
            have hl' := apply_lastInv hb.first hl op' hop
            exact (ih (apply_boundsInv hb op') hl').mpr ht pre htail

/-- For every sequence of calls: a pop made at any point of it is exact
if and only if every append of the sequence keeps `last`. -/
theorem run_pop_exact_iff (ops : List (Op V)) :
    (∀ pre, pre <+: ops → PopExact ((init : Store V).run pre))
      ↔ AppendsKeepLast init ops :=
  popExact_prefixes_iff ops boundsInv_init (lastInv_of_none rfl)

/-- A string key and seven appends fill the table, a delete leaves a
tombstone, a pop caches `last`, and of two more appends the second one
compacts. -/
def compactingAppend : List (Op Nat) :=
  [.write (.str [120]) 9 true, .append 0 true, .append 1 true,
    .append 2 true, .append 3 true, .append 4 true, .append 5 true,
    .append 6 true, .delete (.long 3), .pop, .append 7 true,
    .append 8 true]

/-- The pop after `compactingAppend` returns null and removes nothing,
with eight entries in the table. -/
theorem pop_after_compactingAppend :
    (init.run compactingAppend).pop.1 = none
      ∧ (init.run compactingAppend).pop.2.hash.numElements = 8
      ∧ ¬ ∀ ops : List (Op Nat), PopExact (init.run ops) := by
  have hpop : (init.run compactingAppend).pop.1 = none := by decide
  have hlast : (init.run compactingAppend).hash.entries.getLast?
      = some (.long 8, 8) := by decide
  refine ⟨hpop, by decide, fun h => ?_⟩
  have := (h compactingAppend).1
  rw [hpop, hlast] at this
  cases this

end PmmpThread.Model.Store
