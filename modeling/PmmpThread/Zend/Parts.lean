/-
Values that contain other values, through pointers too, so that a value
may contain itself. What has to be checked of a value all the way down is
`Throughout`: it goes through every part at every depth, and it asks that
the parts come to an end. Where only finitely many values refer to others
by a pointer, that is to say that no part contains itself
(`acc_iff_not_containsItself`).
-/
import Mathlib.Data.Set.Finite.Basic
import Mathlib.Logic.Relation

namespace PmmpThread.Zend

variable {α : Type} {part : α → α → Prop} {P Q : α → Prop} {v : α}

/-- What holds of a value and of all that is in it. -/
theorem forall_below_iff : (∀ u, Relation.ReflTransGen part u v → P u)
    ↔ P v ∧ ∀ u, part u v → ∀ u', Relation.ReflTransGen part u' u → P u' := by
  constructor
  · intro h
    exact ⟨h v .refl, fun u hu u' hu' => h u' (hu'.tail hu)⟩
  · rintro ⟨hv, hparts⟩ u hu
    rcases Relation.ReflTransGen.cases_tail hu with rfl | ⟨u', hu', hpart⟩
    · exact hv
    · exact hparts u' hpart u hu'

/-- `P` holds of `v` and of all that is in it, and nothing in it contains
itself. -/
structure Throughout (part : α → α → Prop) (P : α → Prop) (v : α) : Prop where
  ends : Acc part v
  all : ∀ u, Relation.ReflTransGen part u v → P u

/-- From the parts to the whole. -/
theorem Throughout.induct (h : Throughout part P v)
    (hstep : ∀ v, P v → (∀ u, part u v → Q u) → Q v) : Q v := by
  obtain ⟨hends, hall⟩ := h
  induction hends with
  | intro v _ ih =>
      exact hstep v (hall v .refl) fun u hu =>
        ih u hu fun u' hu' => hall u' (hu'.tail hu)

-- ============================================================== cycles

/-- Something in `v`, or `v`, contains itself. -/
def ContainsItself (part : α → α → Prop) (v : α) : Prop :=
  ∃ u, Relation.ReflTransGen part u v ∧ Relation.TransGen part u u

theorem acc_below (h : Acc part v) {u : α}
    (hu : Relation.ReflTransGen part u v) : Acc part u := by
  induction hu using Relation.ReflTransGen.head_induction_on with
  | refl => exact h
  | head hpart _ ih => exact ih.inv hpart

theorem not_containsItself_of_acc (h : Acc part v) :
    ¬ ContainsItself part v := by
  rintro ⟨u, hu, hself⟩
  have hacc := (acc_below h hu).transGen
  clear hu
  induction hacc with
  | intro u _ ih => exact ih u hself hself

/-- Of the pointers below `v`, one is in another. -/
def PointerIn (part : α → α → Prop) (back : α → Prop) (v : α)
    (p q : {p // back p ∧ Relation.ReflTransGen part p v}) : Prop :=
  Relation.TransGen part p.1 q.1

/-- Finitely many pointers that are not on a circle. -/
theorem wellFounded_pointerIn {back : α → Prop} (hfin : {v | back v}.Finite)
    (hno : ¬ ContainsItself part v) : WellFounded (PointerIn part back v) := by
  have hfinite : Finite {p // back p ∧ Relation.ReflTransGen part p v} :=
    Set.Finite.subset hfin fun p hp => hp.1
  have htrans : IsTrans _ (PointerIn part back v) :=
    ⟨fun _ _ _ h h' => Relation.TransGen.trans h h'⟩
  have hirrefl : Std.Irrefl (PointerIn part back v) :=
    ⟨fun p hself => hno ⟨p.1, p.2.2, hself⟩⟩
  exact Finite.wellFounded_of_trans_of_irrefl _

/-- Where only finitely many values have parts that are not smaller, all
that can go on for ever is a circle. -/
theorem acc_iff_not_containsItself {back : α → Prop}
    (hwf : WellFounded fun u v => part u v ∧ ¬ back v)
    (hfin : {v | back v}.Finite) :
    Acc part v ↔ ¬ ContainsItself part v := by
  refine ⟨not_containsItself_of_acc, fun hno => ?_⟩
  -- what is in a value ends if what is in each pointer below does
  have hdown : ∀ u, (∀ p, back p → Relation.ReflTransGen part p u →
      Acc part p) → Acc part u := by
    intro u
    induction u using hwf.induction with
    | h u ih =>
        intro hback
        by_cases hu : back u
        · exact hback u hu .refl
        · refine .intro u fun u' hpart => ih u' ⟨hpart, hu⟩ fun p hp hpu => ?_
          exact hback p hp (hpu.tail hpart)
  -- and a pointer below ends if those that are in it do
  refine hdown v fun p hp hpv => ?_
  have hpointer : ∀ p : {p // back p ∧ Relation.ReflTransGen part p v},
      Acc part p.1 := by
    intro p
    induction p using (wellFounded_pointerIn hfin hno).induction with
    | h p ih =>
        refine .intro _ fun u hpart => hdown u fun q hq hqu => ?_
        have hqp : Relation.TransGen part q p.1 := .tail' hqu hpart
        exact ih ⟨q, hq, hqp.to_reflTransGen.trans p.2.2⟩ hqp
  exact hpointer ⟨p, hp, hpv⟩

/-- One bound for all elements of a list. -/
theorem exists_bound_of_forall_mem {P : Nat → α → Prop} {l : List α}
    (h : ∀ a ∈ l, ∃ n, ∀ m, n ≤ m → P m a) :
    ∃ n, ∀ m, n ≤ m → ∀ a ∈ l, P m a := by
  induction l with
  | nil => exact ⟨0, fun m _ a ha => absurd ha List.not_mem_nil⟩
  | cons a l ih =>
      obtain ⟨n, hn⟩ := h a List.mem_cons_self
      obtain ⟨n', hn'⟩ := ih fun b hb => h b (List.mem_cons_of_mem _ hb)
      refine ⟨max n n', fun m hm b hb => ?_⟩
      rcases List.mem_cons.mp hb with rfl | hb
      · exact hn m (by omega)
      · exact hn' m (by omega) b hb

end PmmpThread.Zend
