/-
The copy of a value ends if and only if nothing in the value contains
itself.

The recursion of `pmmpthread_copy_zval` goes through references and arrays
and marks nothing, so it is as deep as the value (`acc_of_ends`). A value
whose parts come to an end is copied as what it is (`copyZval_same`); a
value is finitely many zvals, so parts that do not come to an end go round
(`acc_part_iff`).
-/
import PmmpThread.Proofs.Closures

namespace PmmpThread.Model.Originals

open Zend World

variable {E : Engine} {h : Originals} {t : ThreadId} {w w₁ : World}
  {v : Bound}

-- ============================================================== circles

/-- A value that has its parts elsewhere. -/
inductive IsPointer (h : Originals) : Bound → Prop
  | slot {p : SlotPtr} (hp : p < h.slots.length) : IsPointer h (.pointer p)
  | closure {p : ClosurePtr} (hp : p < h.closures.length) :
      IsPointer h (.closure p)

theorem finite_isPointer (h : Originals) : {v | h.IsPointer v}.Finite := by
  have hslots := (Set.finite_lt_nat h.slots.length).image Bound.pointer
  have hclosures := (Set.finite_lt_nat h.closures.length).image Bound.closure
  refine (hslots.union hclosures).subset fun v hv => ?_
  cases hv with
  | slot hp => exact Or.inl ⟨_, hp, rfl⟩
  | closure hp => exact Or.inr ⟨_, hp, rfl⟩

/-- Without a pointer a part is smaller than the whole. -/
theorem part_sizeOf_lt {u : Bound} (hpart : h.Part u v)
    (hv : ¬ h.IsPointer v) : sizeOf u < sizeOf v := by
  cases hpart with
  | @element es e he =>
      have hlt := List.sizeOf_lt_of_mem he
      have hsnd : sizeOf e = 1 + sizeOf e.1 + sizeOf e.2 := rfl
      have hes := Bound.array.sizeOf_spec es
      omega
  | behind hp =>
      exact absurd (.slot (List.getElem?_eq_some_iff.mp hp).1) hv
  | bound hp he =>
      exact absurd (.closure (List.getElem?_eq_some_iff.mp hp).1) hv

theorem acc_part_iff (h : Originals) (v : Bound) :
    Acc h.Part v ↔ ¬ ContainsItself h.Part v := by
  refine acc_iff_not_containsItself ?_ h.finite_isPointer
  exact Subrelation.wf (fun huv => part_sizeOf_lt huv.1 huv.2)
    (InvImage.wf sizeOf Nat.lt_wfRel.wf)

-- ================================================================ data

theorem data_iff : h.Data v
    ↔ h.IsData v ∧ ∀ u, h.Part u v → h.Data u := forall_below_iff

/-- There is nothing in data that could not be copied. -/
theorem IsData.known (hv : h.IsData v) : h.Known E w t v := by
  cases v with
  | pointer p => exact hv
  | threadSafe a => exact hv.elim
  | closure p => exact hv.elim
  | enumCase cls name => exact hv.elim
  | other => exact hv.elim
  | _ => trivial

theorem Data.copyable (hv : h.Data v) (hends : Acc h.Part v) :
    h.Copyable E w t v := ⟨hends, fun u hu => (hv u hu).known⟩

-- ============================================================== ending

/-- A loop over a table that ends has copied each of its values. -/
theorem copyTable_ends {failed : Key → List (Key × ZvalCopy)} {copy : Copier}
    {es : List (Key × Bound)} : ∀ {w₁ : World} {r},
    copyTable failed copy es w₁ = some r →
      ∀ e ∈ es, ∃ u, (copy u e.2).isSome = true := by
  induction es with
  | nil => exact fun _ e he => absurd he List.not_mem_nil
  | cons d es ih =>
      intro w₁ r hr e he
      rw [copyTable] at hr
      obtain ⟨r₁, h₁, hr⟩ := Option.bind_eq_some_iff.mp hr
      obtain ⟨r₂, h₂, -⟩ := Option.map_eq_some_iff.mp hr
      rcases List.mem_cons.mp he with rfl | he
      · exact ⟨w₁, by rw [h₁]; rfl⟩
      · exact ih h₂ e he

/-- A recursion that ends has been through all parts. -/
theorem acc_of_ends {fuel : Nat} : ∀ {v : Bound} {w₁ : World}, h.Data v →
    (copyZval E h t fuel w₁ v).isSome = true → Acc h.Part v := by
  induction fuel with
  | zero => exact fun _ hends => absurd hends Bool.false_ne_true
  | succ fuel ih =>
      intro v w₁ hv hends
      obtain ⟨hkind, hparts⟩ := data_iff.mp hv
      refine .intro v fun u hpart => ?_
      cases hpart with
      | @element es e he =>
          rw [copyZval, Option.isSome_map] at hends
          obtain ⟨r, hr⟩ := Option.isSome_iff_exists.mp hends
          obtain ⟨w₂, hsome⟩ := copyTable_ends hr e he
          exact ih (hparts _ (.element he)) hsome
      | behind hp =>
          rw [copyZval, hp] at hends
          exact ih (hparts _ (.behind hp)) hends
      | bound hp he => exact hkind.elim

/-- The copy ends, and is what the value is. -/
def CopyEnds (E : Engine) (h : Originals) (w : World) (t : ThreadId)
    (v : Bound) : Prop :=
  ∃ fuel c w', copyZval E h t fuel w v = some (some c, w')
    ∧ h.SameAs w w' c v

/-- The copy of data ends, with the shape and the values of the source, if
and only if nothing in it contains itself. -/
theorem copyZval_ends_iff (E : Engine) (w : World) (hw : Reachable E w)
    (h : Originals) (t : ThreadId) (v : Bound) (hv : h.Data v) :
    h.CopyEnds E w t v ↔ ¬ ContainsItself h.Part v := by
  rw [← acc_part_iff]
  constructor
  · rintro ⟨fuel, c, w', hc, -⟩
    have hsome : (copyZval E h t fuel w v).isSome = true := by
      rw [hc]
      rfl
    exact acc_of_ends hv hsome
  · intro hends
    obtain ⟨n, hn⟩ := copyZval_same (t := t) hw.skel (hv.copyable hends)
    obtain ⟨c, w', hc, -, hsame⟩ := hn n (Nat.le_refl n) w .refl
    exact ⟨n, c, w', hc, hsame⟩

/-- `$b = 1; $a = [&$b, &$b];` -/
def sharedReference : Originals where
  closures := []
  slots := [.long 1]

theorem copyZval_ends_iff_shared :
    sharedReference.CopyEnds (demoEngine .bump) init 2
      (.array [(.long 0, .pointer 0), (.long 1, .pointer 0)]) := by
  have hlong : sharedReference.Data (.long 1) :=
    data_iff.mpr ⟨trivial, fun u hu => nomatch hu⟩
  have hpointer : sharedReference.Data (.pointer 0) := by
    refine data_iff.mpr ⟨rfl, fun u hu => ?_⟩
    cases hu with
    | behind hp =>
        cases hp
        exact hlong
  have harray : sharedReference.Data
      (.array [(.long 0, .pointer 0), (.long 1, .pointer 0)]) := by
    refine data_iff.mpr ⟨trivial, fun u hu => ?_⟩
    cases hu with
    | element he =>
        rcases List.mem_cons.mp he with rfl | he
        · exact hpointer
        · rw [List.mem_singleton.mp he]
          exact hpointer
  refine (copyZval_ends_iff (demoEngine .bump) init ⟨[], rfl⟩ sharedReference
    2 _ harray).mpr (not_containsItself_of_acc ?_)
  have hacc : Acc sharedReference.Part (.pointer 0) := by
    refine .intro _ fun u hu => ?_
    cases hu with
    | behind hp =>
        cases hp
        exact .intro _ fun u hu => nomatch hu
  refine .intro _ fun u hu => ?_
  cases hu with
  | element he =>
      rcases List.mem_cons.mp he with rfl | he
      · exact hacc
      · rw [List.mem_singleton.mp he]
        exact hacc

/-- `$a = []; $a[0] = &$a;` -/
def selfReference : Originals where
  closures := []
  slots := [.array [(.long 0, .pointer 0)]]

/-- No depth is enough for an array that contains a reference to itself. -/
theorem copyZval_endless :
    selfReference.Data (.array [(.long 0, .pointer 0)])
      ∧ (∀ fuel, copyZval (demoEngine .bump) selfReference 2 fuel init
        (.array [(.long 0, .pointer 0)]) = none)
      ∧ ¬ selfReference.CopyEnds (demoEngine .bump) init 2
        (.array [(.long 0, .pointer 0)]) := by
  have hnone : ∀ fuel, copyZval (demoEngine .bump) selfReference 2 fuel init
      (.array [(.long 0, .pointer 0)]) = none := by
    intro fuel
    induction fuel using Nat.strongRecOn with
    | ind fuel ih =>
        rcases fuel with _ | _ | fuel
        · rfl
        · rfl
        · have hin := ih fuel (by omega)
          simp only [selfReference] at hin
          simp [copyZval, copyHash, copyTable, selfReference, hin]
  refine ⟨?_, hnone, ?_⟩
  · intro u hu
    have hform : u = .array [(.long 0, .pointer 0)] ∨ u = .pointer 0 := by
      induction hu using Relation.ReflTransGen.head_induction_on with
      | refl => exact Or.inl rfl
      | head hpart _ ih =>
          rcases ih with rfl | rfl
          · cases hpart with
            | element he =>
                rw [List.mem_singleton.mp he]
                exact Or.inr rfl
          · cases hpart with
            | behind hp =>
                cases hp
                exact Or.inl rfl
    rcases hform with rfl | rfl
    · trivial
    · rfl
  · rintro ⟨fuel, c, w', hc, -⟩
    rw [hnone fuel] at hc
    cases hc

end PmmpThread.Model.Originals
