/-
Loops that may stop: over a list, with rounds that may fail, and so runs
of a machine some of whose steps are not possible. Both are `List.foldlM`
in `Option`.

What a round makes of the rounds before it holds after the loop
(`foldlM_rounds`, by induction on the list from its end); the other rules
follow from that one. `foldlM_ends` and `foldlM_isSome_iff` say when a loop
comes to its end.

At the end are optional values and lists whose members are related one by
one: what is known of a member from the one it is related to, and what two
lists have in common that are both related to a third.
-/
import Mathlib.Data.List.Induction
import Mathlib.Data.List.Forall2

namespace PmmpThread.Zend

variable {α β : Type} {f : β → α → Option β}

/-- The first round and the rest. -/
theorem foldlM_cons_iff {a : α} {l : List α} {b b' : β} :
    (a :: l).foldlM f b = some b'
      ↔ ∃ c, f b a = some c ∧ l.foldlM f c = some b' := by
  rw [List.foldlM_cons]
  exact Option.bind_eq_some_iff

/-- A loop that is cut in two. -/
theorem foldlM_append_iff {l l' : List α} {b b' : β} :
    (l ++ l').foldlM f b = some b'
      ↔ ∃ c, l.foldlM f b = some c ∧ l'.foldlM f c = some b' := by
  rw [List.foldlM_append]
  exact Option.bind_eq_some_iff

-- ================================================================ invariants

/-- The invariant may speak of the rounds before, and a round may use that
the loop got to it. -/
theorem foldlM_rounds {P : List α → β → Prop} (l : List α) {b b' : β}
    (hb : P [] b)
    (hf : ∀ pre a post c c', l = pre ++ a :: post →
      pre.foldlM f b = some c → P pre c → f c a = some c' →
      P (pre ++ [a]) c')
    (h : l.foldlM f b = some b') : P l b' := by
  induction l using List.reverseRecOn generalizing b' with
  | nil =>
      injection h with h
      exact h ▸ hb
  | append_singleton l a ih =>
      obtain ⟨c, hc, h⟩ := foldlM_append_iff.mp h
      obtain ⟨c', ha, h⟩ := foldlM_cons_iff.mp h
      injection h with h
      have hl := ih (fun pre a' post u u' hl => hf pre a' (post ++ [a]) u u'
        (by rw [hl, List.append_assoc, List.cons_append])) hc
      exact h ▸ hf l a [] c c' rfl hc hl ha

/-- An invariant that every round keeps. -/
theorem foldlM_induct {P : β → Prop} (l : List α)
    (hf : ∀ {c a c'}, a ∈ l → P c → f c a = some c' → P c') {b b' : β}
    (hb : P b) (h : l.foldlM f b = some b') : P b' := by
  refine foldlM_rounds (P := fun _ => P) l hb (fun pre a post c c' hl _ => ?_) h
  exact hf (hl ▸ List.mem_append_right _ List.mem_cons_self)

/-- Each element has had its round on the way. -/
theorem foldlM_visits {P : β → Prop} {R : β → β → Prop}
    (hrefl : ∀ {c}, P c → R c c) (htrans : ∀ {c d e}, R c d → R d e → R c e)
    (l : List α)
    (hf : ∀ {c a c'}, a ∈ l → P c → f c a = some c' → P c' ∧ R c c') {b b' : β}
    (hb : P b) (h : l.foldlM f b = some b') :
    P b' ∧ R b b' ∧ ∀ a ∈ l, ∃ c c', P c ∧ R b c ∧ f c a = some c' ∧ R c c'
      ∧ R c' b' := by
  refine foldlM_rounds (P := fun pre d => P d ∧ R b d ∧ ∀ a ∈ pre, ∃ c c',
    P c ∧ R b c ∧ f c a = some c' ∧ R c c' ∧ R c' d) l
    ⟨hb, hrefl hb, fun a ha => by cases ha⟩ ?_ h
  rintro pre a post c c' hl - ⟨hc, hbc, hpre⟩ ha
  obtain ⟨hc', hcc⟩ :=
    hf (hl ▸ List.mem_append_right _ List.mem_cons_self) hc ha
  refine ⟨hc', htrans hbc hcc, fun x hx => ?_⟩
  rcases List.mem_append.mp hx with hx | hx
  · obtain ⟨u, u', hu, hbu, hux, huu, huc⟩ := hpre x hx
    exact ⟨u, u', hu, hbu, hux, huu, htrans huc hcc⟩
  · rw [List.mem_singleton.mp hx]
    exact ⟨c, c', hc, hbc, ha, hcc, hrefl hc'⟩

/-- Where each round does the same to what `g` leaves of the state, so does
the loop. -/
theorem foldlM_comm {g : β → β} (hf : ∀ b a, f (g b) a = (f b a).map g)
    (l : List α) : ∀ b, l.foldlM f (g b) = (l.foldlM f b).map g := by
  induction l with
  | nil => exact fun _ => rfl
  | cons a l ih =>
      intro b
      rw [List.foldlM_cons, List.foldlM_cons, hf]
      cases f b a with
      | none => rfl
      | some c => exact ih c

-- ==================================================================== the end

/-- A loop each of whose rounds can be made comes to its end. -/
theorem foldlM_ends {P : β → Prop} (l : List α)
    (hf : ∀ {c a}, a ∈ l → P c → ∃ c', f c a = some c' ∧ P c') :
    ∀ {b : β}, P b → ∃ b', l.foldlM f b = some b' ∧ P b' := by
  induction l with
  | nil => exact fun hb => ⟨_, rfl, hb⟩
  | cons a l ih =>
      intro b hb
      obtain ⟨c, hc, hpc⟩ := hf List.mem_cons_self hb
      obtain ⟨b', hb', hp⟩ :=
        ih (fun ha => hf (List.mem_cons_of_mem _ ha)) hpc
      exact ⟨b', foldlM_cons_iff.mpr ⟨c, hc, hb'⟩, hp⟩

/-- A loop comes to its end exactly if no round stops it. -/
theorem foldlM_isSome_iff {b : β} {l : List α} :
    (l.foldlM f b).isSome = true
      ↔ ∀ pre a post, l = pre ++ a :: post →
          ∀ c, pre.foldlM f b = some c → (f c a).isSome = true := by
  constructor
  · intro h pre a post hl c hc
    obtain ⟨b', hb'⟩ := Option.isSome_iff_exists.mp h
    rw [hl] at hb'
    obtain ⟨c', hc', hpost⟩ := foldlM_append_iff.mp hb'
    obtain ⟨d, hd, -⟩ := foldlM_cons_iff.mp hpost
    rw [Option.some.inj (hc.symm.trans hc'), hd]
    rfl
  · intro h
    induction l generalizing b with
    | nil => rfl
    | cons a l ih =>
        obtain ⟨c, hc⟩ := Option.isSome_iff_exists.mp (h [] a l rfl b rfl)
        rw [List.foldlM_cons, hc]
        refine ih fun pre x post hl d hd => ?_
        exact h (a :: pre) x post (congrArg (a :: ·) hl) d
          (foldlM_cons_iff.mpr ⟨c, hc, hd⟩)

section Related

variable {α β γ : Type} {R : α → β → Prop} {R' : α → γ → Prop}
  {S : β → γ → Prop}

-- ========================================================== optional values

/-- What is related to nothing is nothing, -/
theorem rel_none {y : Option β} (h : Option.Rel R none y) : y = none := by
  cases h
  rfl

/-- and what is related to something is something. -/
theorem rel_some {x : α} {y : Option β} (h : Option.Rel R (some x) y) :
    ∃ y', y = some y' ∧ R x y' := by
  cases h with
  | some h => exact ⟨_, rfl, h⟩

/-- Both or neither, and a value of the second is related to the first. -/
theorem rel_of_isSome {x : Option α} {y : Option β}
    (hsome : y.isSome = x.isSome)
    (h : ∀ b, y = some b → ∃ a, x = some a ∧ R a b) : Option.Rel R x y := by
  cases y with
  | some b =>
      obtain ⟨a, rfl, hr⟩ := h b rfl
      exact .some hr
  | none =>
      cases x with
      | none => exact .none
      | some a => cases hsome

/-- Two things that are related to a third. -/
theorem rel_both (hS : ∀ x y z, R x y → R' x z → S y z) {x : Option α}
    {y : Option β} {z : Option γ} (h : Option.Rel R x y)
    (h' : Option.Rel R' x z) : Option.Rel S y z := by
  cases h with
  | none =>
      cases h'
      exact .none
  | some h =>
      cases h' with
      | some h' => exact .some (hS _ _ _ h h')

-- ==================================================================== lists

/-- Each member has its counterpart. -/
theorem forall₂_mem {xs : List α} {ys : List β} (h : List.Forall₂ R xs ys)
    {x : α} (hx : x ∈ xs) : ∃ y, R x y := by
  induction h with
  | nil => cases hx
  | cons h _ ih =>
      rcases List.mem_cons.mp hx with rfl | hx
      · exact ⟨_, h⟩
      · exact ih hx

/-- Two lists that are related to a third, member by member. -/
theorem forall₂_both {xs : List α} {ys : List β} {zs : List γ}
    (hS : ∀ x ∈ xs, ∀ y z, R x y → R' x z → S y z)
    (h : List.Forall₂ R xs ys) (h' : List.Forall₂ R' xs zs) :
    List.Forall₂ S ys zs := by
  induction h generalizing zs with
  | nil =>
      cases h'
      exact .nil
  | cons h _ ih =>
      cases h' with
      | cons h' ht =>
          exact .cons (hS _ List.mem_cons_self _ _ h h')
            (ih (fun x hx => hS x (List.mem_cons_of_mem _ hx)) ht)

end Related

end PmmpThread.Zend
