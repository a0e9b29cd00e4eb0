/-
The workers of a Pool: how many there are and at which indices.

The pool is filled as documented (`Filled`) as long as `submit` finds an
index to use that is at most the number of workers. `last` runs ahead of
that number when `shutdown` or `resize` takes workers away under it, and
a pool of size 0 makes a worker all the same.
-/
import PmmpThread.Model.Pool

namespace PmmpThread.Model.Pool

open Zend HashTable

variable {W : Type} {p q : Pool W}

-- ================================================================ indices

/-- The indices are 0, 1, ... without a gap. -/
def Indexed (t : HashTable W) : Prop :=
  ∀ k, k ∈ t.entries.map Prod.fst
    ↔ ∃ i : Nat, k = .long i ∧ i < t.numElements

theorem indexed_init (size : Nat) : Indexed (init size : HashTable W) := by
  intro k
  simp [numElements]

/-- The worker that `resize` addresses is there. -/
theorem Indexed.top {t : HashTable W} (h : Indexed t)
    (hpos : 0 < t.numElements) :
    (.long ((t.numElements : Int) - 1)) ∈ t.entries.map Prod.fst := by
  refine (h _).mpr ⟨t.numElements - 1, ?_, by omega⟩
  congr 1
  omega

theorem numElements_del {t : HashTable W} {k : Key}
    (h : k ∈ t.entries.map Prod.fst) :
    (t.del k).numElements + 1 = t.numElements := by
  have hkeys : (t.del k).entries.map Prod.fst
      = (t.entries.map Prod.fst).erase k := by
    have hnd : (t.entries.map Prod.fst).Nodup := t.nodup
    rw [hnd.erase_eq_filter, del, entries_filter, List.filter_map]
    rfl
  have hlen := congrArg List.length hkeys
  rw [List.length_map, List.length_erase_of_mem h, List.length_map] at hlen
  have hpos := List.length_pos_of_mem h
  rw [List.length_map] at hpos
  unfold numElements
  omega

theorem mem_keys_del {t : HashTable W} {k k' : Key} :
    k' ∈ (t.del k).entries.map Prod.fst
      ↔ k' ∈ t.entries.map Prod.fst ∧ k' ≠ k := by
  simp only [del, entries_filter, List.mem_map, List.mem_filter, bne_iff_ne]
  constructor
  · rintro ⟨e, ⟨he, hne⟩, rfl⟩
    exact ⟨⟨e, he, rfl⟩, hne⟩
  · rintro ⟨⟨e, he, rfl⟩, hne⟩
    exact ⟨e, ⟨he, hne⟩, rfl⟩

/-- Taking the last index away leaves no gap. -/
theorem Indexed.del {t : HashTable W} (h : Indexed t)
    (hpos : 0 < t.numElements) :
    Indexed (t.del (.long ((t.numElements : Int) - 1))) := by
  have hcount := numElements_del (h.top hpos)
  intro k
  rw [mem_keys_del, h k]
  constructor
  · rintro ⟨⟨i, rfl, hi⟩, hne⟩
    refine ⟨i, rfl, ?_⟩
    have : (i : Int) ≠ (t.numElements : Int) - 1 := fun he => hne (by rw [he])
    omega
  · rintro ⟨i, rfl, hi⟩
    refine ⟨⟨i, rfl, by omega⟩, fun he => ?_⟩
    injection he with he
    omega

/-- The next index leaves no gap. -/
theorem Indexed.update {t : HashTable W} (h : Indexed t) (w : W) :
    Indexed (t.update false (.long t.numElements) w)
      ∧ (t.update false (.long t.numElements) w).numElements
        = t.numElements + 1 := by
  have hnew : .long (t.numElements : Int) ∉ t.entries.map Prod.fst := by
    intro hk
    obtain ⟨i, hi, hlt⟩ := (h _).mp hk
    injection hi with hi
    omega
  have hcount : (t.update false (.long t.numElements) w).numElements
      = t.numElements + 1 := by
    show (t.update false (.long t.numElements) w).entries.length = _
    rw [entries_update_of_notMem hnew, List.length_append]
    rfl
  refine ⟨fun k => ?_, hcount⟩
  rw [entries_update_of_notMem hnew, List.map_append, List.mem_append, h k,
    List.map_singleton, List.mem_singleton, hcount]
  constructor
  · rintro (⟨i, rfl, hi⟩ | rfl)
    · exact ⟨i, rfl, by omega⟩
    · exact ⟨t.numElements, rfl, by omega⟩
  · rintro ⟨i, rfl, hi⟩
    rcases Nat.lt_succ_iff_lt_or_eq.mp hi with hi | rfl
    · exact Or.inl ⟨i, rfl, hi⟩
    · exact Or.inr rfl

/-- The loop of `resize` ends with `newsize` workers and no gap. -/
theorem resizeLoop_indexed {newsize : Int} (hn : 0 ≤ newsize) (fuel : Nat) :
    ∀ {t : HashTable W} {r : List W × HashTable W}, Indexed t →
      newsize < t.numElements → resizeLoop newsize fuel t = some r →
      Indexed r.2 ∧ (r.2.numElements : Int) = newsize := by
  induction fuel with
  | zero =>
      intro t r _ _ hr
      cases hr
  | succ fuel ih =>
      intro t r h hlt hr
      have hpos : 0 < t.numElements := by omega
      have hcount := numElements_del (h.top hpos)
      unfold resizeLoop at hr
      simp only [] at hr
      split at hr
      case isTrue heq =>
        rw [← Option.some.inj hr]
        exact ⟨h.del hpos, heq⟩
      case isFalse hne =>
        obtain ⟨r', hr', hrr⟩ := Option.map_eq_some_iff.mp hr
        rw [← hrr]
        exact ih (r := r') (h.del hpos) (by omega) hr'

/-- There are never fewer than no workers. -/
theorem resizeLoop_negative {newsize : Int} (hn : newsize < 0) (fuel : Nat) :
    ∀ t : HashTable W, resizeLoop newsize fuel t = none := by
  induction fuel with
  | zero => exact fun _ => rfl
  | succ fuel ih =>
      intro t
      unfold resizeLoop
      simp only [ih, Option.map_none]
      rw [if_neg (by omega)]

-- ====================================================== a filled pool

/-- The pool holds at most `size` workers, at the indices 0 to the number
of workers, so that `resize` names a worker that is there. -/
structure Filled (p : Pool W) : Prop where
  bound : (p.table.numElements : Int) ≤ p.size
  indexed : Indexed p.table
  top : 0 < p.table.numElements →
    (p.table.find (.long ((p.table.numElements : Int) - 1))).isSome = true

theorem filled_iff : Filled p
    ↔ (p.table.numElements : Int) ≤ p.size ∧ Indexed p.table := by
  refine ⟨fun h => ⟨h.bound, h.indexed⟩,
    fun ⟨hb, hi⟩ => ⟨hb, hi, fun hpos => ?_⟩⟩
  rw [Option.isSome_iff_ne_none, ne_eq, find_eq_none_iff]
  exact fun hn => hn (hi.top hpos)

theorem filled_construct_iff (size : Int) (clazz : String) :
    Filled (construct size clazz : Pool W) ↔ 0 ≤ size := by
  rw [filled_iff]
  exact ⟨fun h => h.1, fun h => ⟨h, indexed_init 8⟩⟩

/-- A `submit` that may make a worker does so in a pool that has room,
and at an index that is not past the workers; a `resize` is not to a
negative size. -/
def fits (p : Pool W) : Call W → Prop
  | .submit found _ _ => found = true →
      1 ≤ p.size ∧ (p.size ≤ p.last ∨ p.last ≤ p.table.numElements)
  | .resize newsize _ => 0 ≤ newsize
  | .submitTo _ _ | .shutdown => True

instance (p : Pool W) : (c : Call W) → Decidable (p.fits c)
  | .submit found _ _ => inferInstanceAs (Decidable (found = true →
      1 ≤ p.size ∧ (p.size ≤ p.last ∨ p.last ≤ p.table.numElements)))
  | .resize newsize _ => inferInstanceAs (Decidable (0 ≤ newsize))
  | .submitTo _ _ | .shutdown => inferInstanceAs (Decidable True)

/-- The pool has a class to make workers of, and a `last` that counts. -/
structure Usable (p : Pool W) : Prop where
  clazz : p.clazz.isSome = true
  last : 0 ≤ p.last

theorem Usable.step (h : Usable p) {c : Call W} (hs : p.step c = some q) :
    Usable q := by
  have hlast := h.last
  have hnext : 0 ≤ p.next := by
    unfold next
    split
    · exact Int.le_refl 0
    · exact hlast
  cases c with
  | submit found threw w =>
      rw [← Option.some.inj hs]
      unfold submit
      simp only []
      split
      · exact ⟨h.clazz, Int.le_trans hnext (Int.le_add_one (Int.le_refl _))⟩
      · split
        · exact ⟨h.clazz, hnext⟩
        · split
          · exact ⟨h.clazz,
              Int.le_trans hnext (Int.le_add_one (Int.le_refl _))⟩
          · exact ⟨h.clazz, hnext⟩
  | submitTo n threw =>
      rw [← Option.some.inj hs]
      exact ⟨h.clazz, hlast⟩
  | resize n fuel =>
      obtain ⟨r, hr, rfl⟩ := Option.map_eq_some_iff.mp hs
      unfold resize at hr
      split at hr
      · rw [← Option.some.inj hr]
        exact ⟨h.clazz, hlast⟩
      · split at hr
        · obtain ⟨r', -, hrr⟩ := Option.map_eq_some_iff.mp hr
          rw [← hrr]
          exact ⟨h.clazz, hlast⟩
        · rw [← Option.some.inj hr]
          exact ⟨h.clazz, hlast⟩
  | shutdown =>
      rw [← Option.some.inj hs]
      exact ⟨h.clazz, hlast⟩

/-- A pool with the same workers is filled if it is no smaller. -/
theorem Filled.of_table (h : Filled p) (ht : q.table = p.table)
    (hsize : p.size ≤ q.size) : Filled q := by
  rw [filled_iff, ht]
  exact ⟨Int.le_trans h.bound hsize, h.indexed⟩

theorem submit_filled_iff (h : Filled p) (hu : Usable p)
    (found threw : Bool) (w : W) :
    Filled (p.submit found threw w).2 ↔ p.fits (.submit found threw w) := by
  have hbound := h.bound
  have hlast := hu.last
  have hnext : p.next = 0 ∧ p.size ≤ p.last
      ∨ p.next = p.last ∧ p.last < p.size := by
    unfold next
    split
    case isTrue hle => exact Or.inl ⟨rfl, hle⟩
    case isFalse hlt => exact Or.inr ⟨rfl, by omega⟩
  obtain ⟨clazz, hclazz⟩ := Option.isSome_iff_exists.mp hu.clazz
  unfold submit
  simp only [hclazz]
  cases hf : p.table.find (.long p.next) with
  | some w' =>
      refine ⟨fun _ _ => ?_, fun _ => h.of_table rfl (Int.le_refl _)⟩
      obtain ⟨i, hi, hlt⟩ := (h.indexed _).mp
        (List.mem_map.mpr ⟨_, find_eq_some_iff.mp hf, rfl⟩)
      injection hi with hi
      omega
  | none =>
      cases found with
      | false =>
          refine ⟨fun _ hno => (nomatch hno), fun _ => ?_⟩
          exact h.of_table rfl (Int.le_refl _)
      | true =>
          have hnew := find_eq_none_iff.mp hf
          have hcount : (p.table.update false (.long p.next) w).numElements
              = p.table.numElements + 1 := by
            unfold numElements
            rw [entries_update_of_notMem hnew, List.length_append]
            rfl
          rw [filled_iff]
          show (((p.table.update false (.long p.next) w).numElements : Int)
            ≤ p.size ∧ Indexed (p.table.update false (.long p.next) w)) ↔ _
          rw [hcount]
          constructor
          · rintro ⟨hle, hidx⟩ -
            refine ⟨by omega, ?_⟩
            obtain ⟨i, hi, hlt⟩ := (hidx (.long p.next)).mp
              (List.mem_map.mpr ⟨_, mem_entries_update.mpr (Or.inl rfl), rfl⟩)
            injection hi with hi
            omega
          · intro hfits
            obtain ⟨hone, hpast⟩ := hfits rfl
            have hge : ¬ p.next < p.table.numElements := fun hlt =>
              hnew ((h.indexed _).mpr ⟨p.next.toNat, by
                congr 1
                omega, by omega⟩)
            have heq : p.next = p.table.numElements := by omega
            rw [heq]
            exact ⟨by omega, (h.indexed.update w).1⟩

theorem resize_filled_iff (h : Filled p) {newsize : Int} {fuel : Nat}
    {r : List W × Pool W} (hr : p.resize newsize fuel = some r) :
    Filled r.2 ↔ 0 ≤ newsize := by
  have hbound := h.bound
  have hindexed := h.indexed
  unfold table at hbound hindexed
  unfold resize at hr
  cases hw : p.workers with
  | none =>
      rw [hw] at hr
      rw [← Option.some.inj hr, filled_iff]
      exact ⟨fun hle => hle.1, fun hle => ⟨hle, indexed_init 8⟩⟩
  | some t =>
      rw [hw, Option.getD_some] at hbound hindexed
      simp only [hw] at hr
      split at hr
      case isTrue hlt =>
        obtain ⟨r', hr', hrr⟩ := Option.map_eq_some_iff.mp hr
        have hnn : 0 ≤ newsize := by
          by_contra hneg
          rw [resizeLoop_negative (by omega)] at hr'
          cases hr'
        obtain ⟨hidx, hcount⟩ := resizeLoop_indexed hnn fuel hindexed hlt hr'
        rw [← hrr, filled_iff]
        exact ⟨fun _ => hnn, fun _ => ⟨Int.le_of_eq hcount, hidx⟩⟩
      case isFalse hge =>
        rw [← Option.some.inj hr, filled_iff]
        refine ⟨fun _ => by omega, fun _ => ?_⟩
        refine ⟨?_, hindexed⟩
        show (t.numElements : Int) ≤ newsize
        omega

/-- One call keeps a filled pool filled exactly if it fits. -/
theorem step_filled_iff (h : Filled p) (hu : Usable p) {c : Call W}
    (hs : p.step c = some q) : Filled q ↔ p.fits c := by
  cases c with
  | submit found threw w =>
      rw [← Option.some.inj hs]
      exact submit_filled_iff h hu found threw w
  | submitTo n threw =>
      rw [← Option.some.inj hs]
      exact ⟨fun _ => trivial, fun _ => h.of_table rfl (Int.le_refl _)⟩
  | resize n fuel =>
      obtain ⟨r, hr, rfl⟩ := Option.map_eq_some_iff.mp hs
      exact resize_filled_iff h hr
  | shutdown =>
      rw [← Option.some.inj hs]
      refine ⟨fun _ => trivial, fun _ => ?_⟩
      have hbound := h.bound
      have hempty : ∃ size, p.shutdown.2.table = init size := by
        unfold shutdown table
        cases p.workers with
        | none => exact ⟨8, rfl⟩
        | some t => exact ⟨t.tableSize, rfl⟩
      obtain ⟨size, hempty⟩ := hempty
      rw [filled_iff, hempty]
      refine ⟨?_, indexed_init size⟩
      show (0 : Int) ≤ p.size
      omega

-- ============================================================== sequences

/-- Every call of the sequence fits the pool it is made on. -/
def AllFit : Pool W → List (Call W) → Prop
  | _, [] => True
  | p, c :: calls => p.fits c ∧ (p.step c).elim True fun q => AllFit q calls

instance decidableAllFit : (calls : List (Call W)) → (p : Pool W) →
    Decidable (AllFit p calls)
  | [], _ => inferInstanceAs (Decidable True)
  | c :: calls, p =>
      have : Decidable ((p.step c).elim True fun q => AllFit q calls) :=
        match p.step c with
        | none => inferInstanceAs (Decidable True)
        | some q => decidableAllFit calls q
      inferInstanceAs (Decidable (p.fits c
        ∧ (p.step c).elim True fun q => AllFit q calls))

theorem filled_prefixes_iff (calls : List (Call W)) :
    ∀ {p r : Pool W}, Filled p → Usable p → p.run calls = some r →
      ((∀ pre, pre <+: calls → ∀ q, p.run pre = some q → Filled q)
        ↔ AllFit p calls) := by
  induction calls with
  | nil =>
      intro p r h _ _
      refine ⟨fun _ => trivial, fun _ pre hpre q hq => ?_⟩
      rw [List.prefix_nil.mp hpre] at hq
      rw [← Option.some.inj hq]
      exact h
  | cons c calls ih =>
      intro p r h hu hrun
      obtain ⟨p', hp', hrun'⟩ := run_cons.mp hrun
      have hstep := step_filled_iff h hu hp'
      constructor
      · intro hall
        have hfilled : Filled p' := hall [c] (by simp) p'
          (run_cons.mpr ⟨p', hp', rfl⟩)
        refine ⟨hstep.mp hfilled, ?_⟩
        rw [hp']
        refine (ih hfilled (hu.step hp') hrun').mp fun pre hpre q hq => ?_
        exact hall (c :: pre) ((List.prefix_cons_inj c).mpr hpre) q
          (run_cons.mpr ⟨p', hp', hq⟩)
      · rintro ⟨hfits, hrest⟩ pre hpre q hq
        rw [hp'] at hrest
        cases pre with
        | nil =>
            rw [← Option.some.inj hq]
            exact h
        | cons c' pre =>
            obtain ⟨rfl, htail⟩ := List.cons_prefix_cons.mp hpre
            obtain ⟨p'', hp'', hq⟩ := run_cons.mp hq
            rw [hp'] at hp''
            rw [← Option.some.inj hp''] at hq
            exact (ih (hstep.mpr hfits) (hu.step hp') hrun').mpr
              hrest pre htail q hq

/-- For every sequence of calls on a pool of any size, all of which
return: the pool is filled in every state between them exactly if its
size is not negative and every call fits the pool it is made on. -/
theorem pool_filled_iff (size : Int) (clazz : String)
    (calls : List (Call W)) (r : Pool W)
    (hrun : (construct size clazz).run calls = some r) :
    (∀ pre, pre <+: calls → ∀ q, (construct size clazz).run pre = some q →
        Filled q)
      ↔ 0 ≤ size ∧ AllFit (construct size clazz) calls := by
  have hu : Usable (construct size clazz : Pool W) := ⟨rfl, Int.le_refl 0⟩
  constructor
  · intro hall
    have hfilled := hall [] List.nil_prefix _ rfl
    exact ⟨(filled_construct_iff size clazz).mp hfilled,
      (filled_prefixes_iff calls hfilled hu hrun).mp hall⟩
  · rintro ⟨hsize, hfit⟩
    exact (filled_prefixes_iff calls ((filled_construct_iff size clazz).mpr
      hsize) hu hrun).mpr hfit

/-- Four tasks for a pool of two workers, and a resize to one. -/
def fourTasks : List (Call Nat) :=
  [.submit true false 1, .submit true false 2, .submit true false 3,
    .submitTo 1 false, .resize 1 2]

theorem pool_filled_iff_fourTasks :
    ((construct 2 "Worker").run fourTasks).isSome = true
      ∧ ∀ pre, pre <+: fourTasks → ∀ q,
        (construct 2 "Worker").run pre = some q → Filled q := by
  have hsome : ((construct 2 "Worker").run fourTasks).isSome = true := by
    decide
  obtain ⟨r, hr⟩ := Option.isSome_iff_exists.mp hsome
  refine ⟨hsome, (pool_filled_iff 2 "Worker" fourTasks r hr).mpr
    ⟨by decide, by decide⟩⟩

/-- Two tasks for a pool of three workers, a shutdown and a third task. -/
def submitAfterShutdown : List (Call Nat) :=
  [.submit true false 1, .submit true false 2, .shutdown,
    .submit true false 3]

/-- The only worker is then at index 2; and a pool of size 0 has a worker
after one task. -/
theorem pool_not_filled :
    ((construct 3 "Worker").run submitAfterShutdown).map
        (fun p => p.table.entries) = some [(.long 2, 3)]
      ∧ ((construct 0 "Worker").run [.submit true false 1]).map
        (fun p => (p.size, p.table.entries)) = some (0, [(.long 0, 1)])
      ∧ ¬ ∀ (size : Int) (calls : List (Call Nat)) (q : Pool Nat),
        (construct size "Worker").run calls = some q → Filled q := by
  have hgap : ((construct 3 "Worker").run submitAfterShutdown).map
      (fun p => p.table.entries) = some [(.long 2, 3)] := by decide
  refine ⟨hgap, by decide, fun hall => ?_⟩
  obtain ⟨q, hq, hentries⟩ := Option.map_eq_some_iff.mp hgap
  obtain ⟨i, hi, hlt⟩ := ((hall 3 _ q hq).indexed (.long 2)).mp (by
    rw [hentries]
    exact List.mem_singleton.mpr rfl)
  unfold numElements at hlt
  rw [hentries] at hlt
  injection hi with hi
  change i < 1 at hlt
  omega

end PmmpThread.Model.Pool
