/-
Only one string stands for a number.

`ZEND_HANDLE_NUMERIC_STR` takes a sign, and digits without a leading zero,
and these are the digits of the number. So two names of an object's
properties never stand for one key, as two keys of an array never do.
-/
import PmmpThread.Model.Merge
import Mathlib.Data.Nat.Digits.Lemmas

namespace PmmpThread.Model
open Zend

/-- The digits of a string, the last one first. -/
def digitList (ds : List UInt8) : List Nat :=
  ds.reverse.map fun c => c.toNat - 48

theorem digitsValue_eq (ds : List UInt8) :
    digitsValue ds = Nat.ofDigits 10 (digitList ds) := by
  unfold digitsValue digitList
  induction ds using List.reverseRecOn with
  | nil => rfl
  | append_singleton ds c ih =>
      rw [List.foldl_append, List.foldl_cons, List.foldl_nil, ih,
        List.reverse_append, List.reverse_singleton, List.singleton_append,
        List.map_cons, Nat.ofDigits_cons]
      omega

theorem digit_eq {c d : UInt8} (hc : isDigit c = true) (hd : isDigit d = true)
    (h : c.toNat - 48 = d.toNat - 48) : c = d := by
  simp only [isDigit, Bool.and_eq_true, decide_eq_true_eq,
    UInt8.le_iff_toNat_le] at hc hd
  have h48 : (48 : UInt8).toNat = 48 := rfl
  apply UInt8.toNat_inj.mp
  omega

theorem digits_inj {ds : List UInt8} : ∀ {es : List UInt8},
    (∀ c ∈ ds, isDigit c = true) → (∀ c ∈ es, isDigit c = true) →
    ds.map (fun c => c.toNat - 48) = es.map (fun c => c.toNat - 48) →
    ds = es := by
  induction ds with
  | nil =>
      intro es _ _ h
      exact (List.map_eq_nil_iff.mp h.symm).symm
  | cons c ds ih =>
      intro es hd he h
      cases es with
      | nil => cases h
      | cons d es =>
          injection h with hhead htail
          rw [digit_eq (hd c List.mem_cons_self) (he d List.mem_cons_self)
            hhead, ih (fun c hc => hd c (List.mem_cons_of_mem _ hc))
              (fun c hc => he c (List.mem_cons_of_mem _ hc)) htail]

theorem digitList_inj {ds es : List UInt8} (hd : ds.all isDigit = true)
    (he : es.all isDigit = true) (h : digitList ds = digitList es) :
    ds = es := by
  rw [List.all_eq_true] at hd he
  exact List.reverse_injective (digits_inj
    (fun c hc => hd c (List.mem_reverse.mp hc))
    (fun c hc => he c (List.mem_reverse.mp hc)) h)

/-- The digits of a number: the first is no zero, unless it is the only
one. -/
structure Spelled (ds : List UInt8) : Prop where
  ne : ds ≠ []
  digits : ds.all isDigit = true
  head : ds.head? = some 48 → ds = [48]

theorem Spelled.digits_eq {ds : List UInt8} (h : Spelled ds)
    (hz : ds ≠ [48]) : Nat.digits 10 (digitsValue ds) = digitList ds := by
  rw [digitsValue_eq]
  have hall := List.all_eq_true.mp h.digits
  refine Nat.digits_ofDigits 10 (by omega) _ (fun n hn => ?_)
    fun hne hlast => ?_
  · obtain ⟨c, hc, rfl⟩ := List.mem_map.mp hn
    have hdig := hall c (List.mem_reverse.mp hc)
    simp only [isDigit, Bool.and_eq_true, decide_eq_true_eq,
      UInt8.le_iff_toNat_le] at hdig
    have h57 : (57 : UInt8).toNat = 57 := rfl
    omega
  · cases ds with
    | nil => exact h.ne rfl
    | cons c ds =>
      refine hz (h.head ?_)
      have hdig := hall c List.mem_cons_self
      have hzero : c.toNat - 48 = 0 := by
        rw [← hlast]
        simp [digitList]
      exact congrArg some (digit_eq hdig rfl hzero)

theorem Spelled.inj {ds es : List UInt8} (hd : Spelled ds) (he : Spelled es)
    (h : digitsValue ds = digitsValue es) : ds = es := by
  by_cases hdz : ds = [48]
  · by_cases hez : es = [48]
    · rw [hdz, hez]
    · exfalso
      have hdig := he.digits_eq hez
      rw [← h, hdz, show digitsValue [48] = 0 from rfl,
        Nat.digits_zero] at hdig
      exact he.ne (by simpa [digitList] using hdig)
  · by_cases hez : es = [48]
    · exfalso
      have hdig := hd.digits_eq hdz
      rw [h, hez, show digitsValue [48] = 0 from rfl,
        Nat.digits_zero] at hdig
      exact hd.ne (by simpa [digitList] using hdig)
    · exact digitList_inj hd.digits he.digits
        ((hd.digits_eq hdz).symm.trans (h ▸ he.digits_eq hez))

/-- Where a string stands for a number: the sign and the digits. -/
theorem handleNumericStr_some {key : List UInt8} {n : Int}
    (h : handleNumericStr key = some n) :
    (∃ ds, key = 45 :: ds ∧ Spelled ds ∧ ds ≠ [48] ∧ n = -(digitsValue ds))
      ∨ Spelled key ∧ n = digitsValue key := by
  unfold handleNumericStr at h
  dsimp only at h
  have hspelled : ∀ ds : List UInt8, ds.length ≤ key.length →
      ¬ (ds.isEmpty || !ds.all isDigit
        || (ds.head? == some 48 && decide (key.length > 1))
        || decide (ds.length > 19)) = true →
      Spelled ds ∧ (key.length > 1 → ds.head? ≠ some 48) := by
    intro ds hlen hno
    simp only [Bool.or_eq_true, not_or, Bool.not_eq_true, Bool.not_eq_false',
      Bool.and_eq_false_iff, decide_eq_false_iff_not, beq_eq_false_iff_ne]
      at hno
    obtain ⟨⟨⟨hne, hall⟩, hhead⟩, -⟩ := hno
    have hne' : ds ≠ [] := by
      rintro rfl
      cases hne
    refine ⟨⟨hne', hall, fun hz => ?_⟩, fun hlt => ?_⟩
    · have hone : ds.length ≤ 1 := by
        rcases hhead with hhead | hhead
        · exact absurd hz hhead
        · omega
      cases ds with
      | nil => exact absurd rfl hne'
      | cons c ds =>
          cases ds with
          | nil => rw [Option.some.inj hz]
          | cons d ds =>
              simp only [List.length_cons] at hone
              omega
    · exact hhead.resolve_right (fun h => h hlt)
  cases hneg : key.head? == some 45 with
  | true =>
      rw [hneg] at h
      simp only [if_true] at h
      split at h
      · cases h
      · rename_i hno
        split at h
        · cases h
        · obtain ⟨hsp, hhead⟩ := hspelled _ (by simp) hno
          cases key with
          | nil => cases hneg
          | cons c ds =>
              refine Or.inl ⟨ds, ?_, hsp, ?_, (Option.some.inj h).symm⟩
              · rw [Option.some.inj (beq_iff_eq.mp hneg)]
              · rintro rfl
                exact hhead (by simp) rfl
  | false =>
      rw [hneg] at h
      simp only [Bool.false_eq_true, if_false] at h
      split at h
      · cases h
      · rename_i hno
        split at h
        · cases h
        · exact Or.inr ⟨(hspelled _ (Nat.le_refl _) hno).1,
            (Option.some.inj h).symm⟩

/-- Only one string stands for a number. -/
theorem handleNumericStr_inj {key key' : List UInt8} {n : Int}
    (h : handleNumericStr key = some n)
    (h' : handleNumericStr key' = some n) : key = key' := by
  have hpos : ∀ {ds : List UInt8}, Spelled ds → ds ≠ [48] →
      0 < digitsValue ds := by
    intro ds hsp hz
    by_contra hno
    have hdig := hsp.digits_eq hz
    rw [show digitsValue ds = 0 by omega, Nat.digits_zero] at hdig
    exact hsp.ne (by simpa [digitList] using hdig)
  rcases handleNumericStr_some h with ⟨ds, rfl, hd, hdz, hn⟩ | ⟨hd, hn⟩
  · have hdpos := hpos hd hdz
    rcases handleNumericStr_some h' with ⟨es, rfl, he, -, hn'⟩ | ⟨he, hn'⟩
    · rw [hd.inj he (by omega)]
    · omega
  · rcases handleNumericStr_some h' with ⟨es, rfl, he, hez, hn'⟩ | ⟨he, hn'⟩
    · have hepos := hpos he hez
      omega
    · exact hd.inj he (by omega)

-- ================================================================ keys

/-- The keys of a property table: those of an array, or names. -/
def TableKeys (ks : List Key) : Prop :=
  CanonicalKeys ks ∨ ks.Nodup ∧ ∀ k ∈ ks, ∃ name, k = .str name

/-- No two keys of a property table stand for the same key. -/
theorem TableKeys.nodup {ks : List Key} (h : TableKeys ks) :
    (ks.map coerceKey).Nodup := by
  rcases h with ⟨hcanon, hnd⟩ | ⟨hnd, hnames⟩
  · rwa [List.map_congr_left hcanon, List.map_id']
  · refine List.Nodup.map_on (fun k hk k' hk' heq => ?_) hnd
    obtain ⟨name, rfl⟩ := hnames k hk
    obtain ⟨name', rfl⟩ := hnames k' hk'
    change coerceString name = coerceString name' at heq
    unfold coerceString at heq
    cases hn : handleNumericStr name with
    | none =>
        cases hn' : handleNumericStr name' with
        | none =>
            rw [hn, hn'] at heq
            exact heq
        | some n' =>
            rw [hn, hn'] at heq
            cases heq
    | some n =>
        cases hn' : handleNumericStr name' with
        | none =>
            rw [hn, hn'] at heq
            cases heq
        | some n' =>
            rw [hn, hn'] at heq
            injection heq with heq
            rw [handleNumericStr_inj hn (heq ▸ hn')]

end PmmpThread.Model
