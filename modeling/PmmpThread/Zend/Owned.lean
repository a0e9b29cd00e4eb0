/-
Cells with one owner in a heap that also has cells for good.

# Dropping

`stays` says which cells nobody frees: they may have any number of
users. Any other cell has one owner, and `drop` is what the owner does
with an address it no longer needs, whichever kind it is of. Dropping a
list of addresses goes well if each is live and none that can be freed
comes twice (`dropAll_keeps`), and not if one of them is gone
(`dropAll_dead`).

# Frames

What a change of the heap leaves alone is `Keeps mine`: every cell but
those of `mine` that can be freed. `Extends` is a change that frees
nothing. With an allocator that gives no address out twice every change
is one of `Ages`: what is gone stays so.
-/
import PmmpThread.Zend.Foreach
import PmmpThread.Zend.Heap

namespace PmmpThread.Zend.Heap

variable {α : Type} {stays : α → Bool} {h h' h'' : Heap α}

-- ============================================================= frames

/-- The cells of `h` are as they were, except the ones of `mine` that do
not stay. -/
structure Keeps (stays : α → Bool) (mine : Nat → Prop) (h h' : Heap α) :
    Prop where
  get : ∀ {p x}, h.get p = some x → stays x = true ∨ ¬ mine p →
    h'.get p = some x

/-- Nothing is freed. -/
structure Extends (h h' : Heap α) : Prop where
  live : ∀ {p x}, h.get p = some x → h'.get p = some x

/-- Two changes one after the other. -/
theorem Keeps.trans {mine mine' : Nat → Prop} (h₁ : Keeps stays mine h h')
    (h₂ : Keeps stays mine' h' h'') :
    Keeps stays (fun p => mine p ∨ mine' p) h h'' where
  get hp hx := h₂.get
    (h₁.get hp (hx.imp_right fun hn hm => hn (.inl hm)))
    (hx.imp_right fun hn hm => hn (.inr hm))

theorem Keeps.mono {mine mine' : Nat → Prop} (hk : Keeps stays mine h h')
    (hsub : ∀ p, mine p → mine' p) : Keeps stays mine' h h' where
  get hp hx := hk.get hp (hx.imp_right fun hn hm => hn (hsub _ hm))

theorem Extends.refl (h : Heap α) : Extends h h := ⟨id⟩

theorem Extends.trans (h₁ : Extends h h') (h₂ : Extends h' h'') :
    Extends h h'' :=
  ⟨fun hp => h₂.live (h₁.live hp)⟩

theorem Extends.keeps (he : Extends h h') (mine : Nat → Prop) :
    Keeps stays mine h h' :=
  ⟨fun hp _ => he.live hp⟩

/-- An allocation frees nothing. -/
theorem extends_place (A : Allocator) (h : Heap α) (x : α) :
    Extends h (h.place (h.next A) x) where
  live hp := by
    rw [get_place, if_neg (ne_next_of_get hp)]
    exact hp

/-- Nothing is at an old address but what was there. -/
structure Ages (h h' : Heap α) : Prop where
  past : ∀ {p}, p ∈ h.past → p ∈ h'.past
  get : ∀ {p}, p ∈ h.past → h'.get p = h.get p ∨ h'.get p = none

theorem Ages.refl (h : Heap α) : Ages h h := ⟨id, fun _ => .inl rfl⟩

theorem Ages.trans (h₁ : Ages h h') (h₂ : Ages h' h'') : Ages h h'' where
  past hp := h₂.past (h₁.past hp)
  get hp := by
    rcases h₂.get (h₁.past hp) with heq | hnone
    · rw [heq]
      exact h₁.get hp
    · exact .inr hnone

/-- Without reuse an allocation takes no old address. -/
theorem ages_place {A : Allocator} (hA : A.NoReuse) (h : Heap α) (x : α) :
    Ages h (h.place (h.next A) x) where
  past hp := List.mem_cons_of_mem _ hp
  get hp := by
    rw [get_place, if_neg]
    · exact .inl rfl
    · rintro rfl
      exact hA _ _ hp

/-- What is gone stays so. -/
theorem Ages.dead {p : Nat} (ha : Ages h h') (hp : p ∈ h.past)
    (hdead : h.get p = none) : h'.get p = none :=
  (ha.get hp).elim (·.trans hdead) id

-- =========================================================== dropping

/-- Free a cell, unless it stays; `none` if there is none. -/
def drop (stays : α → Bool) (h : Heap α) (p : Nat) : Option (Heap α) :=
  (h.get p).map fun x => if stays x then h else h.free p

/-- A live cell can be dropped, and no other is touched. -/
theorem drop_keeps (stays : α → Bool) {p : Nat} {x : α}
    (hp : h.get p = some x) :
    ∃ h', h.drop stays p = some h' ∧ Keeps stays (· = p) h h' := by
  unfold drop
  rw [hp, Option.map_some]
  refine ⟨_, rfl, ⟨fun {q y} hq hy => ?_⟩⟩
  by_cases hx : stays x = true
  · rw [if_pos hx]
    exact hq
  · rw [if_neg hx, get_free, if_neg]
    · exact hq
    · rintro rfl
      obtain rfl := Option.some.inj (hp.symm.trans hq)
      exact hy.elim hx fun hn => hn rfl

/-- What stays is there whatever is dropped. -/
theorem drop_stays {p : Nat} (hd : h.drop stays p = some h') :
    Keeps stays (fun _ => True) h h' := by
  obtain ⟨x, hx, -⟩ := Option.map_eq_some_iff.mp hd
  obtain ⟨h₁, hd₁, hk⟩ := drop_keeps stays hx
  obtain rfl := Option.some.inj (hd₁.symm.trans hd)
  exact hk.mono fun _ _ => trivial

theorem dropAll_stays {ps : List Nat}
    (hd : ps.foldlM (drop stays) h = some h') :
    Keeps stays (fun _ => True) h h' :=
  foldlM_induct (P := Keeps stays (fun _ => True) h) ps
    (fun _ hk hd => (hk.trans (drop_stays hd)).mono fun _ _ => trivial)
    ((Extends.refl h).keeps _) hd

theorem drop_ages {p : Nat} (hd : h.drop stays p = some h') :
    Ages h h' := by
  obtain ⟨x, -, rfl⟩ := Option.map_eq_some_iff.mp hd
  split
  case isTrue => exact .refl h
  case isFalse =>
    refine ⟨id, fun {q} _ => ?_⟩
    rw [get_free]
    split
    case isTrue => exact .inr rfl
    case isFalse => exact .inl rfl

theorem dropAll_ages {ps : List Nat}
    (hd : ps.foldlM (drop stays) h = some h') : Ages h h' :=
  foldlM_induct (P := Ages h) ps (fun _ ha hd => ha.trans (drop_ages hd))
    (.refl h) hd

/-- Two addresses that may both be dropped. -/
def Apart (stays : α → Bool) (h : Heap α) (p q : Nat) : Prop :=
  ∀ x, h.get p = some x → stays x = true ∨ p ≠ q

/-- Only the cells of the list matter. -/
theorem apart_congr {ps : List Nat}
    (hsame : ∀ p ∈ ps, h'.get p = h.get p)
    (ha : ps.Pairwise (Apart stays h)) : ps.Pairwise (Apart stays h') :=
  ha.imp_of_mem fun {p _} hp _ hpq x hx =>
    hpq x ((hsame p hp).symm.trans hx)

/-- Dropping a list goes well if no cell of it is dropped twice. -/
theorem dropAll_keeps {ps : List Nat} :
    ∀ {h : Heap α}, (∀ p ∈ ps, ∃ x, h.get p = some x) →
      ps.Pairwise (Apart stays h) →
      ∃ h', ps.foldlM (drop stays) h = some h'
        ∧ Keeps stays (· ∈ ps) h h' := by
  induction ps with
  | nil => exact fun {h} _ _ => ⟨h, rfl, ⟨fun hp _ => hp⟩⟩
  | cons p ps ih =>
      intro h hlive hapart
      obtain ⟨hfirst, hrest⟩ := List.pairwise_cons.mp hapart
      obtain ⟨x, hx⟩ := hlive p List.mem_cons_self
      obtain ⟨h₁, hdrop, hk₁⟩ := drop_keeps stays hx
      have hsame : ∀ q ∈ ps, h₁.get q = h.get q := fun q hq => by
        obtain ⟨y, hy⟩ := hlive q (List.mem_cons_of_mem _ hq)
        rw [hy]
        refine hk₁.get hy ?_
        by_cases hpq : q = p
        · subst hpq
          exact (hfirst q hq y hy).imp_right fun hne => absurd rfl hne
        · exact .inr hpq
      obtain ⟨h₂, hall, hk₂⟩ := ih (fun q hq => by
        rw [hsame q hq]
        exact hlive q (List.mem_cons_of_mem _ hq)) (apart_congr hsame hrest)
      exact ⟨h₂, foldlM_cons_iff.mpr ⟨h₁, hdrop, hall⟩,
        (hk₁.trans hk₂).mono fun q hq => hq.elim
          (fun hq => hq ▸ List.mem_cons_self) (List.mem_cons_of_mem _)⟩

-- ======================================================= dropped twice

/-- What is at the address, if anything is, can be freed. -/
def Owned (stays : α → Bool) (h : Heap α) (p : Nat) : Prop :=
  ∀ x, h.get p = some x → stays x = false

/-- A cell that could be freed is still one, or gone. -/
theorem Ages.owned {p : Nat} (ha : Ages h h') (hp : p ∈ h.past)
    (ho : Owned stays h p) : Owned stays h' p := fun x hx => by
  rcases ha.get hp with heq | hnone
  · exact ho x (heq ▸ hx)
  · rw [hnone] at hx
    cases hx

theorem drop_get {p : Nat} (hd : h.drop stays p = some h') (q : Nat) :
    h'.get q = h.get q ∨ h'.get q = none := by
  obtain ⟨x, -, rfl⟩ := Option.map_eq_some_iff.mp hd
  split
  case isTrue => exact .inl rfl
  case isFalse =>
    rw [get_free]
    split
    case isTrue => exact .inr rfl
    case isFalse => exact .inl rfl

/-- A cell that can be freed is. -/
theorem drop_owned {p : Nat} (hp : Owned stays h p)
    (hd : h.drop stays p = some h') : h'.get p = none := by
  obtain ⟨x, hx, rfl⟩ := Option.map_eq_some_iff.mp hd
  rw [if_neg (by rw [hp x hx]; exact Bool.false_ne_true), get_free,
    if_pos rfl]

theorem dropAll_get {ps : List Nat} (p : Nat) :
    ∀ {h : Heap α}, ps.foldlM (drop stays) h = some h' →
      h'.get p = h.get p ∨ h'.get p = none := by
  induction ps with
  | nil =>
      intro h hd
      exact .inl (congrArg (get · p) (Option.some.inj hd).symm)
  | cons q ps ih =>
      intro h hd
      obtain ⟨h₁, hfirst, hrest⟩ := foldlM_cons_iff.mp hd
      rcases ih hrest with h₂ | h₂
      · exact (drop_get hfirst p).imp h₂.trans h₂.trans
      · exact .inr h₂

/-- Each address of the list that can be freed is freed. -/
theorem dropAll_owned {ps : List Nat} {p : Nat} (hmem : p ∈ ps) :
    ∀ {h : Heap α}, Owned stays h p → ps.foldlM (drop stays) h = some h' →
      h'.get p = none := by
  induction ps with
  | nil => cases hmem
  | cons q ps ih =>
      intro h hp hd
      obtain ⟨h₁, hfirst, hrest⟩ := foldlM_cons_iff.mp hd
      rcases List.mem_cons.mp hmem with rfl | hmem
      · rcases dropAll_get p hrest with h₂ | h₂
        · exact h₂.trans (drop_owned hp hfirst)
        · exact h₂
      · refine ih hmem (fun x hx => hp x ?_) hrest
        rcases drop_get hfirst p with h₁' | h₁'
        · rw [← h₁']
          exact hx
        · rw [h₁'] at hx
          cases hx

/-- What is gone cannot be dropped. -/
theorem dropAll_dead {ps : List Nat} {p : Nat} (hmem : p ∈ ps) :
    ∀ {h : Heap α}, h.get p = none →
      ps.foldlM (drop stays) h = none := by
  induction ps with
  | nil => cases hmem
  | cons q ps ih =>
      intro h hp
      rw [List.foldlM_cons]
      rcases List.mem_cons.mp hmem with rfl | hmem
      · unfold drop
        rw [hp]
        rfl
      · cases hd : h.drop stays q with
        | none => rfl
        | some h₁ =>
            refine ih hmem ?_
            exact (drop_get hd p).elim (·.trans hp) id

end PmmpThread.Zend.Heap
