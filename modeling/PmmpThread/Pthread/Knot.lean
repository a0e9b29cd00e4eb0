/-
Any number of threads that wait for each other, in the terms of
`Pthread/Mutex.lean`.

# Knots

A knot is a set of mutexes each of which is held by a thread that will
take another mutex of the set before it gives the first one back. None of
these threads can get past the mutex it heads for, so a knot stays
(`Knot.step`). Threads of which each waits for a mutex that another of
them holds make a knot (`Stuck.knot`), so a run that never makes one never
comes to that.

# How a knot is made

Only by taking a mutex `l`, on the way to some `y`, while a chain of
holders leads from `y` back to `l`. `Untangled` says that a step does not
do that. It is exact: such a step makes no knot (`Knot.back`), every other
one does (`knot_of_tangled`).
-/
import Mathlib.Data.Set.Basic
import PmmpThread.Pthread.Mutex

namespace PmmpThread.Pthread

variable {T L : Type} [DecidableEq T] [DecidableEq L]

namespace Sched

variable {s s' : Sched T L} {t u v : T} {a b l : L} {K : Set L} {D : Set T}

omit [DecidableEq L] in
/-- Two threads never hold one mutex. -/
theorem depth_exclusive (h : 0 < s.depth t l) (hu : u ≠ t) :
    s.depth u l = 0 := by
  unfold depth at h ⊢
  cases ho : s.owner l with
  | none => rfl
  | some q =>
      obtain ⟨w, n⟩ := q
      rw [ho] at h
      by_cases hw : w = t
      · rw [hw]
        exact timesBy_other hu.symm n
      · rw [timesBy_other hw] at h
        omega

theorem holds_of_heads (h : s.Heads a b t) : 0 < s.depth t a :=
  Nat.pos_of_ne_zero (depth_pos_of_heads h)

-- ============================================================ knots

/-- The holder of `a` will take `b`, which it does not hold, before it
gives `a` back. -/
def Edge (s : Sched T L) (a b : L) (t : T) : Prop :=
  s.Heads a b t ∧ s.depth t b = 0

structure Knot (s : Sched T L) (K : Set L) : Prop where
  nonempty : K.Nonempty
  next : ∀ a ∈ K, ∃ b ∈ K, ∃ t, s.Edge a b t

theorem Edge.ne (h : s.Edge a b t) : a ≠ b := by
  rintro rfl
  exact depth_pos_of_heads h.1 h.2

/-- Each mutex of a knot is held. -/
theorem Knot.held (h : s.Knot K) (ha : a ∈ K) : ∃ t, 0 < s.depth t a := by
  obtain ⟨b, -, t, he⟩ := h.next a ha
  exact ⟨t, holds_of_heads he.1⟩

/-- The steps of other threads change nothing for the thread of an edge. -/
theorem edge_other (h : s.step v = some s') (ht : t ≠ v) :
    s'.Edge a b t ↔ s.Edge a b t := by
  unfold Edge
  rw [heads_other h ht, (step_other h ht).2]

/-- The thread of an edge cannot take the mutex it heads for while another
thread holds it, and until then the edge stays. -/
theorem Edge.step (he : s.Edge a b t) (h : s.step v = some s')
    (hb : ∃ u, u ≠ t ∧ 0 < s.depth u b) : s'.Edge a b t := by
  by_cases ht : t = v
  · subst ht
    obtain ⟨u, hu, hheld⟩ := hb
    have hnot : ∀ rest, s.code t ≠ .lock b :: rest := by
      intro rest hc
      have hfree := ((step_lock h hc).2.2.1 u hu).1
      omega
    refine ⟨?_, ?_⟩
    · rcases heads_step h he.1 with hh | ⟨rest, hc⟩
      · exact hh
      · exact absurd hc (hnot rest)
    · rcases step_cons h with ⟨m, rest, hc⟩ | ⟨m, rest, hc⟩
      · have hbm : b ≠ m := fun hbm => hnot rest (by rw [hc, hbm])
        rw [(step_lock h hc).2.2.2 t b hbm]
        exact he.2
      · obtain ⟨-, hd, -, hm⟩ := step_unlock h hc
        have hbm : b ≠ m := by
          rintro rfl
          have h0 := he.2
          omega
        rw [hm t b hbm]
        exact he.2
  · exact (edge_other h ht).mpr he

/-- A knot stays, whoever steps. -/
theorem Knot.step (hk : s.Knot K) (h : s.step v = some s') : s'.Knot K := by
  refine ⟨hk.nonempty, fun a ha => ?_⟩
  obtain ⟨b, hb, t, he⟩ := hk.next a ha
  obtain ⟨u, hu⟩ := hk.held hb
  refine ⟨b, hb, t, he.step h ⟨u, ?_, hu⟩⟩
  rintro rfl
  have h0 := he.2
  omega

-- ====================================================== how they arise

/-- The holder of `a` will come to `b`, and is not `v` on its way to
`l`. -/
def Blocks (s : Sched T L) (v : T) (l a b : L) : Prop :=
  ∃ t, s.Edge a b t ∧ (t = v → b ≠ l)

/-- The step of `v` takes a mutex `l` on its way to `y` only while no
chain of holders leads from `y` back to `l`. -/
def Untangled (s : Sched T L) (v : T) : Prop :=
  ∀ l rest, s.code v = .lock l :: rest → s.depth v l = 0 →
    ∀ y, y ≠ l → s.depth v y = 0 → willTake l y 1 rest = true →
      ¬ Relation.ReflTransGen (s.Blocks v l) y l

/-- An edge after a step was there before, or begins at the mutex that was
taken. -/
theorem Edge.back (h : s.step v = some s') (he : s'.Edge a b t)
    (hb : ∃ u, 0 < s'.depth u b) :
    (∃ t', s.Edge a b t' ∧ ∀ rest, s.code v = .lock b :: rest → t' ≠ v)
      ∨ ∃ rest, s.code v = .lock a :: rest ∧ s.depth v a = 0
        ∧ b ≠ a ∧ s.depth v b = 0 ∧ willTake a b 1 rest = true := by
  by_cases ht : t = v
  · subst ht
    rcases step_cons h with ⟨m, rest, hc⟩ | ⟨m, rest, hc⟩
    · obtain ⟨-, hd, -, hm⟩ := step_lock h hc
      have hbm : b ≠ m := by
        rintro rfl
        have h0 := he.2
        omega
      have h0 : s.depth t b = 0 := by
        rw [← hm t b hbm]
        exact he.2
      rcases heads_back he.ne h he.1 with hh | ⟨rest', hc', hda, hw⟩
      · refine Or.inl ⟨t, ⟨hh, h0⟩, fun rest' hc' => ?_⟩
        rw [hc] at hc'
        injection hc' with hc'
        injection hc' with hc'
        exact absurd hc'.symm hbm
      · exact Or.inr ⟨rest', hc', hda, he.ne.symm, h0, hw⟩
    · obtain ⟨-, hd, hl, hm⟩ := step_unlock h hc
      have hbm : b ≠ m := by
        rintro rfl
        obtain ⟨u, hu⟩ := hb
        have h0 := he.2
        have hut : u ≠ t := by
          rintro rfl
          omega
        have hfree := depth_exclusive (s := s) (t := t) (l := b)
          (by omega) hut
        rw [hl u hut] at hu
        omega
      rcases heads_back he.ne h he.1 with hh | ⟨rest', hc', -⟩
      · refine Or.inl ⟨t, ⟨hh, ?_⟩, fun rest' hc' => ?_⟩
        · rw [← hm t b hbm]
          exact he.2
        · rw [hc] at hc'
          cases hc'
      · rw [hc] at hc'
        cases hc'
  · exact Or.inl ⟨t, (edge_other h ht).mp he, fun _ _ => ht⟩

/-- An untangled step makes no knot. -/
theorem Knot.back (h : s.step v = some s') (hv : s.Untangled v)
    (hk : s'.Knot K) : ∃ K', s.Knot K' := by
  -- an edge of the knot that was there before, and stays off the new mutex
  by_cases hold : ∀ a ∈ K, ∃ b ∈ K, ∃ t, s.Edge a b t
  · exact ⟨K, hk.nonempty, hold⟩
  · simp only [not_forall] at hold
    obtain ⟨a, ha, hold⟩ := hold
    obtain ⟨y, hy, t, he⟩ := hk.next a ha
    rcases he.back h (hk.held hy) with ⟨t', he', -⟩ | ⟨rest, hc, hd, hne, h0,
      hw⟩
    · exact absurd ⟨y, hy, t', he'⟩ hold
    · have hno := hv a rest hc hd y hne h0 hw
      refine ⟨{ x ∈ K | Relation.ReflTransGen (s.Blocks v a) y x },
        ⟨y, hy, Relation.ReflTransGen.refl⟩, ?_⟩
      rintro x ⟨hx, hreach⟩
      obtain ⟨z, hz, w, hez⟩ := hk.next x hx
      rcases hez.back h (hk.held hz) with ⟨t', he', hstay⟩ | ⟨rest', hc', -⟩
      · refine ⟨z, ⟨hz, hreach.tail ⟨t', he', fun ht hza => ?_⟩⟩, t', he'⟩
        exact hstay rest (by rw [hza]; exact hc) ht
      · rw [hc] at hc'
        injection hc' with hc'
        injection hc' with hc'
        exact absurd (hc' ▸ hreach) hno

/-- Every other step makes one. -/
theorem knot_of_tangled (h : s.step v = some s') (hv : ¬ s.Untangled v) :
    ∃ K, s'.Knot K := by
  unfold Untangled at hv
  simp only [not_forall, Classical.not_not] at hv
  obtain ⟨l, rest, hc, hd, y, hne, h0, hw, hpath⟩ := hv
  obtain ⟨hcode, hd', -, hm⟩ := step_lock h hc
  refine ⟨{ x | Relation.ReflTransGen (s.Blocks v l) y x
    ∧ Relation.ReflTransGen (s.Blocks v l) x l },
    ⟨l, hpath, Relation.ReflTransGen.refl⟩, ?_⟩
  rintro x ⟨hyx, hxl⟩
  rcases Relation.ReflTransGen.cases_head hxl with rfl | ⟨z, hxz, hzl⟩
  · refine ⟨y, ⟨Relation.ReflTransGen.refl, hpath⟩, v, ?_, ?_⟩
    · unfold Heads
      rw [hcode, Function.update_self, hd', hd]
      exact hw
    · rw [hm v y hne]
      exact h0
  · refine ⟨z, ⟨hyx.tail hxz, hzl⟩, ?_⟩
    obtain ⟨t, he, hz⟩ := hxz
    refine ⟨t, ?_⟩
    by_cases ht : t = v
    · have hzl := hz ht
      rw [ht] at he ⊢
      refine ⟨?_, ?_⟩
      · rcases heads_step h he.1 with hh | ⟨rest', hc'⟩
        · exact hh
        · rw [hc] at hc'
          injection hc' with hc'
          injection hc' with hc'
          exact absurd hc'.symm hzl
      · rw [hm v z hzl]
        exact he.2
    · exact (edge_other h ht).mpr he

-- ================================================================ runs

/-- Once there is a knot, there is one for the rest of the run. -/
theorem Knot.moves {P : Sched T L → T → Prop} (hk : s.Knot K)
    (h : Relation.ReflTransGen (Moves P) s s') : s'.Knot K := by
  induction h with
  | refl => exact hk
  | tail _ hmove ih =>
      obtain ⟨v, -, hstep⟩ := hmove
      exact ih.step hstep

end Sched

end PmmpThread.Pthread
