/-
`Pool::resize` on whatever pool the earlier calls have left.

The loop deletes the index `count - 1` until `newsize` workers are left.
It gets on only while that index is there: one round on a table without
it changes nothing, and so does every later round (`resizeLoop_topmost`).
The indices that have to be there are the ones from `newsize` up to the
number of workers. Nothing past them may be there either, or the loop
shuts a worker down that is not the last (`Topmost`).

`submit` leaves such gaps: `last` goes on from where it was before a
`shutdown` took the workers away.
-/
import PmmpThread.Proofs.Pool

namespace PmmpThread.Model.Pool

open Zend HashTable

variable {W : Type} {p : Pool W} {t : HashTable W}

-- ================================================== what is asked of it

/-- The workers of `t` that are not in `t'`. -/
def removed (t t' : HashTable W) : List (Key × W) :=
  t.entries.filter fun e => !t'.contains e.1

/-- A call that returned: `shutdown` lists the workers it shut down. -/
structure Shrunk (t : HashTable W) (newsize : Int) (shutdown : List W)
    (t' : HashTable W) : Prop where
  count : (t'.numElements : Int) = min (t.numElements : Int) newsize
  kept : t'.entries = t.entries.filter fun e => t'.contains e.1
  highest : ∀ i j : Int, t'.contains (.long i) = true →
    t.contains (.long j) = true → t'.contains (.long j) = false → i < j
  once : shutdown.Perm ((removed t t').map Prod.snd)

/-- `resize` returns, and to a size that is not negative it takes the
workers with the highest indices away and shuts each down once. -/
def Resizes (p : Pool W) (newsize : Int) : Prop :=
  ∃ fuel r, p.resize newsize fuel = some r
    ∧ (0 ≤ newsize → Shrunk p.table newsize r.1 r.2.table)

/-- There is nothing to take away, or the indices from `newsize` on are
those up to the number of workers. -/
def Topmost (p : Pool W) (newsize : Int) : Prop :=
  p.workers = none ∨ (p.table.numElements : Int) ≤ newsize
    ∨ 0 ≤ newsize ∧ ∀ i : Int, newsize ≤ i →
      (p.table.contains (.long i) = true ↔ i < p.table.numElements)

-- ============================================================= the loop

theorem contains_del {k k' : Key} :
    (t.del k).contains k' = true ↔ t.contains k' = true ∧ k' ≠ k := by
  rw [contains_iff, contains_iff, mem_keys_del]

/-- Deleting an index that is not there changes no entry. -/
theorem entries_del_of_not {k : Key} (h : ¬ t.contains k = true) :
    (t.del k).entries = t.entries := by
  rw [del, entries_filter, List.filter_eq_self]
  intro e he
  rw [bne_iff_ne]
  rintro rfl
  exact h (contains_iff.mpr (List.mem_map.mpr ⟨e, he, rfl⟩))

/-- The index the loop names next. -/
def top (t : HashTable W) : Key := .long ((t.numElements : Int) - 1)

theorem numElements_del_of_not {k : Key} (h : ¬ t.contains k = true) :
    (t.del k).numElements = t.numElements :=
  congrArg List.length (entries_del_of_not h)

/-- A loop that ends has found every index from `newsize` up to the
number of workers. -/
theorem resizeLoop_topmost {newsize : Int} (fuel : Nat) :
    ∀ {t : HashTable W} {r : List W × HashTable W},
      newsize < t.numElements → resizeLoop newsize fuel t = some r →
      ∀ i : Int, newsize ≤ i → i < t.numElements →
        t.contains (.long i) = true := by
  induction fuel with
  | zero =>
      intro t r _ hr
      cases hr
  | succ fuel ih =>
      intro t r hlt hr i hi hik
      unfold resizeLoop at hr
      simp only [] at hr
      by_cases htop : t.contains (top t) = true
      · have hcount := numElements_del (contains_iff.mp htop)
        rcases Int.lt_or_eq_of_le (show i ≤ (t.numElements : Int) - 1 by omega)
          with hlow | rfl
        · split at hr
          case isTrue heq =>
            rw [top] at hcount
            omega
          case isFalse hne =>
            obtain ⟨r', hr', -⟩ := Option.map_eq_some_iff.mp hr
            rw [top] at hcount
            exact (contains_del.mp (ih (by omega) hr' i hi (by omega))).1
        · exact htop
      · -- nothing was deleted: the loop goes on with the same count
        have hcount := numElements_del_of_not htop
        rw [top] at hcount
        rw [if_neg (by omega)] at hr
        obtain ⟨r', hr', -⟩ := Option.map_eq_some_iff.mp hr
        exact (contains_del.mp (ih (by omega) hr' i hi (by omega))).1

/-- The entries of a table are the one under `k` and the others. -/
theorem entries_perm_del {k : Key} {w : W} (h : t.find k = some w) :
    t.entries.Perm ((k, w) :: (t.del k).entries) := by
  have hnd : t.entries.Nodup := List.Nodup.of_map Prod.fst t.nodup
  have hmem := find_eq_some_iff.mp h
  rw [List.perm_ext_iff_of_nodup hnd]
  · intro e
    rw [List.mem_cons, del, entries_filter, List.mem_filter, bne_iff_ne]
    constructor
    · intro he
      by_cases hk : e.1 = k
      · refine Or.inl (Prod.ext hk ?_)
        have hf : t.find e.1 = some e.2 := find_eq_some_iff.mpr he
        rw [hk, h] at hf
        exact (Option.some.inj hf).symm
      · exact Or.inr ⟨he, hk⟩
    · rintro (rfl | ⟨he, -⟩)
      · exact hmem
      · exact he
  · rw [del, entries_filter, List.nodup_cons, List.mem_filter]
    exact ⟨fun hk => by simp at hk, hnd.filter _⟩

/-- Of the workers not in `t'`, one is the worker at `k`. -/
theorem removed_perm {t' : HashTable W} {k : Key} {w : W}
    (h : t.find k = some w) (hk : t'.contains k = false) :
    (removed t t').Perm ((k, w) :: removed (t.del k) t') := by
  have hp := (entries_perm_del h).filter fun e => !t'.contains e.1
  rw [List.filter_cons_of_pos (by simp [hk])] at hp
  exact hp

/-- What the loop leaves: the indices from `newsize` up to the number of
workers are gone. -/
structure Cut (t : HashTable W) (newsize : Int) (shutdown : List W)
    (t' : HashTable W) : Prop where
  count : (t'.numElements : Int) = newsize
  keys : ∀ k, t'.contains k = true ↔ t.contains k = true
    ∧ ∀ i : Int, newsize ≤ i → i < t.numElements → k ≠ .long i
  entries : t'.entries = t.entries.filter fun e => t'.contains e.1
  once : shutdown.Perm ((removed t t').map Prod.snd)

theorem contains_of_mem {e : Key × W} (h : e ∈ t.entries) :
    t.contains e.1 = true :=
  contains_iff.mpr (List.mem_map.mpr ⟨e, h, rfl⟩)

/-- A table is what is left of it when only its own keys are. -/
theorem entries_filter_self :
    t.entries = t.entries.filter fun e => t.contains e.1 :=
  (List.filter_eq_self.mpr fun _ he => contains_of_mem he).symm

/-- One round deletes the topmost index and shuts its worker down. -/
theorem cut_top {newsize : Int} {w : W} (h : t.find (top t) = some w)
    (hcount : (t.numElements : Int) = newsize + 1) :
    Cut t newsize [w] (t.del (top t)) := by
  have hmem : t.contains (top t) = true := by
    unfold contains
    rw [h]
    rfl
  have hdel := numElements_del (contains_iff.mp hmem)
  have hgone : (t.del (top t)).contains (top t) = false := by
    unfold contains
    rw [find_del_self]
    rfl
  refine ⟨by omega, fun k => ?_, ?_, ?_⟩
  · rw [contains_del]
    refine and_congr_right fun _ => ⟨fun hk i hi hik => ?_, fun hk => ?_⟩
    · rwa [show i = (t.numElements : Int) - 1 by omega]
    · exact hk _ (by omega) (by omega)
  · rw [del, entries_filter]
    refine List.filter_congr fun e he => ?_
    rw [Bool.eq_iff_iff, bne_iff_ne, ← del, contains_del]
    exact ⟨fun hk => ⟨contains_of_mem he, hk⟩, fun hk => hk.2⟩
  · refine List.Perm.symm ((removed_perm h hgone).map Prod.snd |>.trans ?_)
    have hnil : removed (t.del (top t)) (t.del (top t)) = [] := by
      refine List.filter_eq_nil_iff.mpr fun e he => ?_
      rw [contains_of_mem he]
      exact Bool.false_ne_true
    rw [hnil]
    exact List.Perm.refl _

/-- A round before the others. -/
theorem Cut.step {newsize : Int} {w : W} {l : List W} {t' : HashTable W}
    (h : t.find (top t) = some w) (hlt : newsize < t.numElements)
    (hcut : Cut (t.del (top t)) newsize l t') : Cut t newsize (w :: l) t' := by
  have hmem : t.contains (top t) = true := by
    unfold contains
    rw [h]
    rfl
  have hdel := numElements_del (contains_iff.mp hmem)
  have hkeys : ∀ k, t'.contains k = true ↔ t.contains k = true
      ∧ ∀ i : Int, newsize ≤ i → i < t.numElements → k ≠ .long i := by
    intro k
    rw [hcut.keys k, contains_del, and_assoc]
    refine and_congr_right fun _ => ⟨fun ⟨hne, hk⟩ i hi hik => ?_,
      fun hk => ⟨hk _ (by omega) (by omega), fun i hi hik =>
        hk i hi (by omega)⟩⟩
    rcases Int.lt_or_eq_of_le (show i ≤ (t.numElements : Int) - 1 by omega)
      with hlow | rfl
    · exact hk i hi (by omega)
    · exact hne
  have hgone : t'.contains (top t) = false := by
    rw [← Bool.not_eq_true, hkeys]
    exact fun hk => hk.2 _ (by omega) (by omega) rfl
  refine ⟨hcut.count, hkeys, ?_, ?_⟩
  · rw [hcut.entries, del, entries_filter, List.filter_filter]
    refine List.filter_congr fun e _ => ?_
    by_cases hk : e.1 = top t
    · rw [hk, hgone, Bool.false_and]
    · rw [bne_iff_ne.mpr hk, Bool.and_true]
  · refine ((hcut.once.cons w).trans ?_)
    exact ((removed_perm h hgone).map Prod.snd).symm

/-- With these indices there the loop ends, after having shut down the
workers at them. -/
theorem resizeLoop_ends {newsize : Int} (fuel : Nat) :
    ∀ {t : HashTable W}, (t.numElements : Int) = newsize + fuel + 1 →
      (∀ i : Int, newsize ≤ i → i < t.numElements →
        t.contains (.long i) = true) →
      ∃ r, resizeLoop newsize (fuel + 1) t = some r
        ∧ Cut t newsize r.1 r.2 := by
  induction fuel with
  | zero =>
      intro t hcount hall
      have hmem := hall ((t.numElements : Int) - 1) (by omega) (by omega)
      obtain ⟨w, hw⟩ := Option.isSome_iff_exists.mp hmem
      have hdel := numElements_del (contains_iff.mp hmem)
      refine ⟨([w], t.del (top t)), ?_, cut_top hw (by omega)⟩
      unfold resizeLoop
      simp only [hw]
      rw [if_pos (by omega)]
      rfl
  | succ fuel ih =>
      intro t hcount hall
      have hmem := hall ((t.numElements : Int) - 1) (by omega) (by omega)
      obtain ⟨w, hw⟩ := Option.isSome_iff_exists.mp hmem
      have hdel := numElements_del (contains_iff.mp hmem)
      obtain ⟨r, hr, hcut⟩ := ih (t := t.del (top t))
        (by rw [top]; omega) (by
          intro i hi hik
          rw [top] at hik
          rw [contains_del]
          refine ⟨hall i hi (by omega), fun heq => ?_⟩
          injection heq with heq
          omega)
      refine ⟨(w :: r.1, r.2), ?_, Cut.step hw (by omega) hcut⟩
      unfold resizeLoop
      simp only [hw]
      rw [if_neg (by omega)]
      rw [top] at hr
      rw [hr]
      rfl

-- ============================================================= the call

/-- Nothing is taken away. -/
theorem shrunk_self {newsize : Int} (h : (t.numElements : Int) ≤ newsize) :
    Shrunk t newsize [] t := by
  refine ⟨by omega, entries_filter_self, fun i j _ hj hno => ?_, ?_⟩
  · rw [hj] at hno
    cases hno
  · have hnil : removed t t = [] := by
      refine List.filter_eq_nil_iff.mpr fun e he => ?_
      rw [contains_of_mem he]
      exact Bool.false_ne_true
    rw [hnil]
    exact List.Perm.refl _

/-- What the loop takes away are the highest indices exactly if there is
no index past them. -/
theorem Cut.shrunk_iff {newsize : Int} {l : List W} {t' : HashTable W}
    (hcut : Cut t newsize l t') (hlt : newsize < t.numElements)
    (hall : ∀ i : Int, newsize ≤ i → i < t.numElements →
      t.contains (.long i) = true) :
    Shrunk t newsize l t' ↔ ∀ i : Int, newsize ≤ i →
      (t.contains (.long i) = true ↔ i < t.numElements) := by
  have hgone : t'.contains (.long newsize) = false := by
    rw [← Bool.not_eq_true, hcut.keys]
    exact fun hk => hk.2 newsize (Int.le_refl _) hlt rfl
  constructor
  · intro h i hi
    refine ⟨fun hmem => ?_, hall i hi⟩
    by_contra hge
    have hkept : t'.contains (.long i) = true := by
      refine (hcut.keys _).mpr ⟨hmem, fun j _ hj heq => ?_⟩
      injection heq with heq
      omega
    have := h.highest i newsize hkept (hall newsize (Int.le_refl _) hlt) hgone
    omega
  · intro h
    refine ⟨?_, hcut.entries, fun i j hi hj hno => ?_, hcut.once⟩
    · rw [hcut.count]
      omega
    · obtain ⟨hmem, hout⟩ := (hcut.keys _).mp hi
      have hlow : i < newsize := by
        by_contra hge
        exact hout i (by omega) ((h i (by omega)).mp hmem) rfl
      by_contra hge
      rw [← Bool.not_eq_true, hcut.keys] at hno
      refine hno ⟨hj, fun k hk _ heq => ?_⟩
      injection heq with heq
      omega

/-- More rounds than the loop takes change nothing. -/
theorem resizeLoop_mono {newsize : Int} (fuel : Nat) :
    ∀ {t : HashTable W} {r : List W × HashTable W} {fuel' : Nat},
      resizeLoop newsize fuel t = some r → fuel ≤ fuel' →
      resizeLoop newsize fuel' t = some r := by
  induction fuel with
  | zero =>
      intro t r fuel' h
      cases h
  | succ fuel ih =>
      intro t r fuel' h hle
      cases fuel' with
      | zero => omega
      | succ fuel' =>
          unfold resizeLoop at h ⊢
          simp only [] at h ⊢
          split at h
          case isTrue heq =>
            rw [if_pos heq]
            exact h
          case isFalse hne =>
            obtain ⟨r', hr', hrr⟩ := Option.map_eq_some_iff.mp h
            rw [if_neg hne, ih hr' (by omega), ← hrr]
            rfl

theorem resizeLoop_det {newsize : Int} {fuel fuel' : Nat}
    {r r' : List W × HashTable W} (h : resizeLoop newsize fuel t = some r)
    (h' : resizeLoop newsize fuel' t = some r') : r = r' := by
  have h₁ := resizeLoop_mono fuel h (Nat.le_max_left fuel fuel')
  rw [resizeLoop_mono fuel' h' (Nat.le_max_right fuel fuel')] at h₁
  exact (Option.some.inj h₁).symm

theorem resizes_iff (p : Pool W) (newsize : Int) :
    Resizes p newsize ↔ Topmost p newsize := by
  unfold Resizes Topmost
  unfold resize table
  cases hw : p.workers with
  | none =>
      refine ⟨fun _ => Or.inl rfl, fun _ => ⟨0, _, rfl, fun hn => ?_⟩⟩
      exact shrunk_self hn
  | some t =>
      simp only [Option.getD_some]
      by_cases hlt : newsize < t.numElements
      · simp only [if_pos hlt]
        constructor
        · rintro ⟨fuel, r, hr, hshrunk⟩
          obtain ⟨r', hr', rfl⟩ := Option.map_eq_some_iff.mp hr
          have hn : 0 ≤ newsize := by
            by_contra hneg
            rw [resizeLoop_negative (by omega)] at hr'
            cases hr'
          have hall := resizeLoop_topmost fuel hlt hr'
          obtain ⟨r'', hr'', hcut⟩ := resizeLoop_ends
            ((t.numElements : Int) - newsize - 1).toNat (t := t) (by omega)
            hall
          rw [resizeLoop_det hr'' hr'] at hcut
          exact Or.inr (Or.inr ⟨hn, (hcut.shrunk_iff hlt hall).mp
            (hshrunk hn)⟩)
        · rintro (h | h | ⟨hn, hall⟩)
          · cases h
          · omega
          · have hall' := fun i hi hik => (hall i hi).mpr hik
            obtain ⟨r, hr, hcut⟩ := resizeLoop_ends
              ((t.numElements : Int) - newsize - 1).toNat (t := t) (by omega)
              hall'
            refine ⟨_, _, by rw [hr]; rfl, fun _ => ?_⟩
            exact (hcut.shrunk_iff hlt hall').mpr hall
      · simp only [if_neg hlt]
        refine ⟨fun _ => Or.inr (Or.inl (by omega)),
          fun _ => ⟨0, _, rfl, fun _ => ?_⟩⟩
        exact shrunk_self (by omega)

/-- A filled pool takes every size. -/
theorem Filled.resizes (h : Filled p) {newsize : Int} (hn : 0 ≤ newsize) :
    Resizes p newsize := by
  refine (resizes_iff p newsize).mpr (Or.inr (Or.inr ⟨hn, fun i hi => ?_⟩))
  rw [contains_iff, h.indexed]
  constructor
  · rintro ⟨j, hj, hlt⟩
    injection hj with hj
    omega
  · intro hlt
    refine ⟨i.toNat, ?_, by omega⟩
    congr 1
    omega

/-- In every pool, however it came about, and for every size: `resize`
returns and shuts exactly the highest workers down, if and only if there
is nothing to take away or the indices from that size on are those up to
the number of workers. -/
theorem pool_resizes_iff (q : Pool W) (newsize : Int) :
    Resizes q newsize ↔ Topmost q newsize :=
  resizes_iff q newsize

/-- After `submitAfterShutdown` the one worker is at index 2, and a resize
to 0 asks for index 0 for ever; so does every resize to a negative size
once there is a table. -/
theorem pool_not_resizes :
    (∀ q, (construct 3 "Worker").run submitAfterShutdown = some q →
        ¬ Resizes q 0)
      ∧ (∀ q, (construct 1 "Worker").run [.submit true false 1] = some q →
        ¬ Resizes q (-1))
      ∧ ¬ ∀ (size : Int) (calls : List (Call Nat)) (q : Pool Nat),
        (construct size "Worker").run calls = some q →
          ∀ newsize, Resizes q newsize := by
  have hgap : ((construct 3 "Worker").run submitAfterShutdown).map
      (fun p => (p.workers.isSome, p.table.entries))
        = some (true, [(.long 2, 3)]) := by decide
  have hone : ((construct 1 "Worker").run [.submit true false 1]).map
      (fun p => (p.workers.isSome, p.table.entries))
        = some (true, [(.long 0, 1)]) := by decide
  have hcount : ∀ {q : Pool Nat} {e : Key × Nat}, q.table.entries = [e] →
      q.table.numElements = 1 := fun h => congrArg List.length h
  have hfirst : ∀ q, (construct 3 "Worker").run submitAfterShutdown = some q →
      ¬ Resizes q 0 := by
    intro q hq hres
    rw [hq, Option.map_some, Option.some.injEq, Prod.mk.injEq] at hgap
    obtain ⟨hsome, hentries⟩ := hgap
    have hk := hcount hentries
    rcases (resizes_iff q 0).mp hres with h | h | ⟨-, h⟩
    · rw [h] at hsome
      cases hsome
    · omega
    · have hz := (h 0 (Int.le_refl 0)).mpr (by omega)
      rw [contains_iff, hentries] at hz
      revert hz
      decide
  refine ⟨hfirst, fun q hq hres => ?_, fun hall => ?_⟩
  · rw [hq, Option.map_some, Option.some.injEq, Prod.mk.injEq] at hone
    obtain ⟨hsome, hentries⟩ := hone
    have hk := hcount hentries
    rcases (resizes_iff q (-1)).mp hres with h | h | ⟨h, -⟩
    · rw [h] at hsome
      cases hsome
    · omega
    · omega
  · obtain ⟨q, hq, -⟩ := Option.map_eq_some_iff.mp hgap
    exact hfirst q hq (hall 3 submitAfterShutdown q hq 0)

end PmmpThread.Model.Pool
