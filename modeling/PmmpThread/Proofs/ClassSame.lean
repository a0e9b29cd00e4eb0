/-
When two entries of two threads are the same: what they point to are
copies of the same classes.

# Whole entries

An entry is whole when it has what the creator's class has (`Whole`). Two
whole entries of one class are the same but for the scopes of the methods
and the property infos, which are shared with other entries and may have
been copied before (`Whole.same`). The rest is determined by the class:
the values, because the enums that the case objects are of have all their
cases on both threads (`copied_same`); and the static tables, because
both threads follow the same line of parents, each of which has a table of
the same length (`inheritedSlots_same`).
-/
import PmmpThread.Zend.Foreach
import PmmpThread.Proofs.ClassCreate

namespace PmmpThread.Model.Classes

open Constants (lower)
open Zend

-- ============================================================ the same entry

section Same

variable (C : Creator) (v v' : Child)

/-- Pointers of two threads to copies of one class. -/
def SameClass (r r' : Ref) : Prop :=
  ∃ d, IsCopy C v d r ∧ IsCopy C v' d r'

inductive SameVal : CopyVal → CopyVal → Prop
  | null : SameVal .null .null
  | plain (code : Nat) : SameVal (.plain code) (.plain code)
  | enumCase {r r' : Ref} (name : Bytes) (h : SameClass C v v' r r') :
      SameVal (.enumCase r name) (.enumCase r' name)

/-- The static tables of copies of one class. -/
def SameTable (t t' : Table) : Prop :=
  ∃ r r' n n', SameClass C v v' r r' ∧ v.staticsOf C r = some (t, n)
    ∧ v'.staticsOf C r' = some (t', n')

inductive SameSlot : Slot → Slot → Prop
  | value {w w' : CopyVal} (h : SameVal C v v' w w') :
      SameSlot (.value w) (.value w')
  | raw (w : Value) : SameSlot (.raw w) (.raw w)
  | indirect {t t' : Table} (i : Nat) (h : SameTable C v v' t t') :
      SameSlot (.indirect t i) (.indirect t' i)

/-- What an entry of one thread has is what an entry of another has. -/
structure SameEntry (e e' : Entry) : Prop where
  parent : Option.Rel (SameClass C v v') e.parent e'.parent
  interfaces : List.Forall₂ (SameClass C v v') e.interfaces e'.interfaces
  methods : ∀ x, x ∈ e.functionTable ↔ x ∈ e'.functionTable
  scopes : ∀ x ∈ e.functionTable,
    Option.Rel (Option.Rel (SameClass C v v')) (v.scopes x.2) (v'.scopes x.2)
  props : ∀ x, x ∈ e.propertiesInfo ↔ x ∈ e'.propertiesInfo
  infos : ∀ x ∈ e.propertiesInfo,
    Option.Rel (fun i i' => i.offset = i'.offset
      ∧ SameClass C v v' i.ce i'.ce) (v.infos x.2) (v'.infos x.2)
  defaults : List.Forall₂ (SameVal C v v') e.defaultProperties
    e'.defaultProperties
  statics : Option.Rel (fun t t' => ∃ l l', v.tables[t]? = some l
    ∧ v'.tables[t']? = some l' ∧ List.Forall₂ (SameSlot C v v') l l')
    e.defaultStatics e'.defaultStatics
  constants : ∀ n, Option.Rel (fun k k' => SameClass C v v' k.ce k'.ce
    ∧ SameVal C v v' k.value k'.value) (e.constants.lookup n)
    (e'.constants.lookup n)

end Same

-- ============================================================ on the way

section Side

variable {C : Creator} {c : ClassId} {s₀ s v u : Child}
  {X : ClassId → Prop} {I L : Addr → Prop} {J : InfoId → Prop} {a : Addr}

/-- On the way to `u`, where only the entry `a` is still to change and what
is not whole are copies of `c`. -/
structure Side (C : Creator) (c : ClassId) (s₀ : Child) (X : ClassId → Prop)
    (I L : Addr → Prop) (J : InfoId → Prop) (a : Addr) (v u : Child) :
    Prop where
  inv : Inv C s₀ X I L J v
  ext : Ext C (· = a) v u
  whole : ∀ b, I b ∨ L b → ∀ e, v.entries[b]? = some e → e.origin = c
  own : ∀ e, v.entries[a]? = some e → e.origin = c
  tables : ∀ d, X d → d = c

variable (hC : C.Engine) (h : Side C c s₀ X I L J a v u) {d : ClassId}
  {p : Ref}

include h

theorem Side.staticsOf (hp : IsCopy C v d p) (hd : d ≠ c) :
    (C.classes d).defaultStatics = [] ∧ v.staticsOf C p = none
      ∨ (C.classes d).defaultStatics ≠ [] ∧ ∃ t, v.staticsOf C p
          = some (t, (C.classes d).defaultStatics.length)
        ∧ u.staticsOf C p = v.staticsOf C p := by
  have hX : ¬ X d := fun hX => hd (h.tables d hX)
  have hA : ∀ b, p = .own b → ¬ b = a := by
    rintro b rfl rfl
    obtain ⟨e, he, ho⟩ := hp
    exact hd (ho.symm.trans (h.own e he))
  have hu := staticsOf_ext h.inv h.ext hp hX hA
  cases hs : v.staticsOf C p with
  | some tn =>
      obtain ⟨t, n⟩ := tn
      have hn := staticsOf_length h.inv hp hX hs
      refine Or.inr ⟨?_, t, by rw [hn], by rw [hu, hs]⟩
      cases p with
      | creator d' =>
          obtain ⟨rfl, -⟩ := hp
          intro hnil
          simp [Child.staticsOf, hnil] at hs
      | own b =>
          obtain ⟨e, he, rfl⟩ := hp
          change (v.entries[b]?.bind Entry.defaultStatics).map _ = _ at hs
          rw [he] at hs
          obtain ⟨n', hn', -⟩ := Option.map_eq_some_iff.mp hs
          exact ((h.inv.entries b e he).statics n' hn').1
  | none =>
      refine Or.inl ⟨?_, rfl⟩
      by_contra hne
      cases p with
      | creator d' =>
          obtain ⟨rfl, -⟩ := hp
          simp [Child.staticsOf, hne] at hs
      | own b =>
          obtain ⟨e, he, rfl⟩ := hp
          have hL : ¬ L b := fun hL => hd (h.whole b (Or.inr hL) e he)
          have hsome := (h.inv.late b e he hL).statics hne
          change (v.entries[b]?.bind Entry.defaultStatics).map _ = none at hs
          rw [he, Option.map_eq_none_iff] at hs
          change e.defaultStatics = none at hs
          rw [hs] at hsome
          cases hsome

include hC in
theorem Side.parentOf (hp : IsCopy C v d p) (hd : d ≠ c) :
    Option.Rel (IsCopy C v) (C.classes d).parent (v.parentOf C p) := by
  cases hpar : v.parentOf C p with
  | some p' =>
      obtain ⟨d', hd', hp'⟩ := parentOf_copy hC h.inv hp hpar
      rw [hd']
      exact .some hp'
  | none =>
      cases hd' : (C.classes d).parent with
      | none => exact .none
      | some d' =>
          cases p with
          | creator d₁ =>
              obtain ⟨rfl, -⟩ := hp
              change (C.classes d₁).parent.map _ = none at hpar
              rw [hd'] at hpar
              cases hpar
          | own b =>
              obtain ⟨e, he, rfl⟩ := hp
              change v.entries[b]?.bind Entry.parent = none at hpar
              rw [he] at hpar
              have hI : ¬ I b := fun hI => hd (h.whole b (Or.inl hI) e he)
              cases hl : (C.classes e.origin).linked with
              | false =>
                  rw [hC.unlinked _ hl] at hd'
                  cases hd'
              | true =>
                  have hsome := (h.inv.base b e he hI).parent hl
                  change e.parent = none at hpar
                  rw [hpar, hd'] at hsome
                  cases hsome

end Side

-- ================================================================== statics

/-- Above the first class there is nothing. -/
theorem inheritedSlots_root {C : Creator} {s : Child} {fuel : Nat}
    {l : List Slot} (h : C.inheritedSlots s fuel none = some l) : l = [] := by
  cases fuel with
  | zero => cases h
  | succ fuel => exact (Option.some.inj h).symm

section Sides

variable {C : Creator} {c : ClassId} {s₀ v u : Child} {X : ClassId → Prop}
  {I L : Addr → Prop} {J : InfoId → Prop} {a : Addr} {s₀' v' u' : Child}
  {X' : ClassId → Prop} {I' L' : Addr → Prop} {J' : InfoId → Prop}
  {a' : Addr} (hC : C.Engine) (halone : ∀ d, (C.classes d).parent ≠ some c)
  (h : Side C c s₀ X I L J a v u) (h' : Side C c s₀' X' I' L' J' a' v' u')

include h h'

/-- Both have a table of as many slots, or neither has one. -/
theorem staticsOf_same {d : ClassId} {p p' : Ref} (hp : IsCopy C v d p)
    (hp' : IsCopy C v' d p') (hd : d ≠ c) :
    v.staticsOf C p = none ∧ v'.staticsOf C p' = none
      ∨ ∃ t t' n, v.staticsOf C p = some (t, n)
        ∧ v'.staticsOf C p' = some (t', n) ∧ SameTable C u u' t t' := by
  rcases h.staticsOf hp hd with ⟨hnil, hs⟩ | ⟨hne, t, hs, hu⟩
  · rcases h'.staticsOf hp' hd with ⟨-, hs'⟩ | ⟨hne', -⟩
    · exact Or.inl ⟨hs, hs'⟩
    · exact absurd hnil hne'
  · rcases h'.staticsOf hp' hd with ⟨hnil', -⟩ | ⟨-, t', hs', hu'⟩
    · exact absurd hnil' hne
    · exact Or.inr ⟨t, t', _, hs, hs', p, p', _, _,
        ⟨d, hp.mono h.ext, hp'.mono h'.ext⟩, hu.trans hs, hu'.trans hs'⟩

theorem staticsCount_same {d : ClassId} {p p' : Ref} (hp : IsCopy C v d p)
    (hp' : IsCopy C v' d p') (hd : d ≠ c) :
    v.staticsCount C (some p) = v'.staticsCount C (some p') := by
  show ((v.staticsOf C p).map Prod.snd).getD 0
    = ((v'.staticsOf C p').map Prod.snd).getD 0
  rcases staticsOf_same h h' hp hp' hd with ⟨hs, hs'⟩ | ⟨t, t', n, hs, hs', -⟩
  · rw [hs, hs']
  · rw [hs, hs']
    rfl

include hC halone

/-- The parents have as many statics, and the indirections to them are to
the tables of the same classes. -/
theorem inheritedSlots_same (fuel fuel' : Nat) :
    ∀ {d : ClassId} {p p' : Option Ref} {l l' : List Slot},
      Option.Rel (IsCopy C v) (C.classes d).parent p →
      Option.Rel (IsCopy C v') (C.classes d).parent p' →
      C.inheritedSlots v fuel p = some l →
      C.inheritedSlots v' fuel' p' = some l' →
      v.staticsCount C p = v'.staticsCount C p'
        ∧ List.Forall₂ (SameSlot C u u') l l' := by
  induction fuel generalizing fuel' with
  | zero =>
      intro d p p' l l' _ _ hl
      cases hl
  | succ fuel ih =>
      intro d p p' l l' hp hp' hl hl'
      cases hd : (C.classes d).parent with
      | none =>
          rw [hd] at hp hp'
          rw [rel_none hp] at hl ⊢
          rw [rel_none hp'] at hl' ⊢
          rw [inheritedSlots_root hl, inheritedSlots_root hl']
          exact ⟨rfl, .nil⟩
      | some d' =>
          rw [hd] at hp hp'
          obtain ⟨q, rfl, hq⟩ := rel_some hp
          obtain ⟨q', rfl, hq'⟩ := rel_some hp'
          have hne : d' ≠ c := fun heq => halone d (heq ▸ hd)
          refine ⟨staticsCount_same h h' hq hq' hne, ?_⟩
          cases fuel' with
          | zero => cases hl'
          | succ fuel' =>
              unfold Creator.inheritedSlots at hl hl'
              rcases staticsOf_same h h' hq hq' hne with ⟨hs, hs'⟩
                | ⟨t, t', n, hs, hs', ht⟩
              · rw [hs] at hl
                rw [hs'] at hl'
                rw [← Option.some.inj hl, ← Option.some.inj hl']
                exact .nil
              · rw [hs] at hl
                rw [hs'] at hl'
                obtain ⟨slots, hslots, rfl⟩ := Option.map_eq_some_iff.mp hl
                obtain ⟨slots', hslots', rfl⟩ := Option.map_eq_some_iff.mp hl'
                obtain ⟨hcount, hsame⟩ := ih fuel' (h.parentOf hC hq hne)
                  (h'.parentOf hC hq' hne) hslots hslots'
                rw [hcount]
                refine List.rel_append hsame ?_
                rw [List.forall₂_map_left_iff, List.forall₂_map_right_iff,
                  List.forall₂_same]
                exact fun i _ => .indirect i ht

end Sides

-- ============================================================ whole entries

section Whole

variable {C : Creator} {c : ClassId} {s₀ v u : Child} {X : ClassId → Prop}
  {I L : Addr → Prop} {J : InfoId → Prop} {a : Addr} {fuel : Nat}
  {e : Entry} {s₀' v' u' : Child} {X' : ClassId → Prop}
  {I' L' : Addr → Prop} {J' : InfoId → Prop} {a' : Addr} {fuel' : Nat}
  {e' : Entry}

/-- What an entry of the class has, scopes and infos apart. -/
structure Whole (C : Creator) (c : ClassId) (s₀ : Child)
    (X : ClassId → Prop) (I L : Addr → Prop) (J : InfoId → Prop)
    (fuel : Nat) (a : Addr) (u : Child) (e : Entry) : Prop where
  entry : EntryInv C X u e
  origin : e.origin = c
  others : ∀ b, L b → ∀ e, u.entries[b]? = some e → e.origin = c
  parent : Option.Rel (IsCopy C u) (C.classes c).parent e.parent
  interfaces : List.Forall₂ (IsCopy C u) (C.classes c).interfaces
    e.interfaces
  methods : ∀ x ∈ (C.classes c).functionTable, x ∈ e.functionTable
  late : Late C e
  defaults : List.Forall₂ (DefaultOk C L u) (C.classes c).defaultProperties
    e.defaultProperties
  noStatics : (C.classes c).defaultStatics = [] → e.defaultStatics = none
  statics : (C.classes c).defaultStatics ≠ [] →
    ∃ n slots own v, e.defaultStatics = some n
      ∧ u.tables[n]? = some (slots ++ own) ∧ Side C c s₀ X I L J a v u
      ∧ Option.Rel (IsCopy C v) (C.classes c).parent e.parent
      ∧ C.inheritedSlots v fuel e.parent = some slots
      ∧ List.Forall₂ (SlotOk C L u)
        ((C.classes c).defaultStatics.drop (v.staticsCount C e.parent)) own

/-- A value is copied alike by two threads to which the enum is whole. -/
theorem copied_same {w : Value} {o o' : Option CopyVal}
    (hw : ∀ d, w.cls? = some d → d ≠ c)
    (hL : ∀ b, L b → ∀ e, u.entries[b]? = some e → e.origin = c)
    (hL' : ∀ b, L' b → ∀ e, u'.entries[b]? = some e → e.origin = c)
    (h : Copied C L u w o) (h' : Copied C L' u' w o') :
    Option.Rel (SameVal C u u') o o' := by
  cases h with
  | plain code =>
      cases h'
      exact .some (.plain code)
  | other =>
      cases h'
      exact .none
  | enumCase name hr hcase =>
      cases h' with
      | enumCase name hr' hcase' =>
          have hne := hw _ rfl
          have hhas := hcase fun b hb hLb => by
            rw [hb] at hr
            obtain ⟨e, he, ho⟩ := hr
            exact hne (ho.symm.trans (hL b hLb e he))
          have hhas' := hcase' fun b hb hLb => by
            rw [hb] at hr'
            obtain ⟨e, he, ho⟩ := hr'
            exact hne (ho.symm.trans (hL' b hLb e he))
          rw [hhas, hhas']
          split
          · exact .some (.enumCase name ⟨_, hr, hr'⟩)
          · exact .none

theorem valOk_same {w : Value} {k k' : CopyVal} (h : ValOk C u w k)
    (h' : ValOk C u' w k') : SameVal C u u' k k' := by
  cases h with
  | plain code =>
      cases h'
      exact .plain code
  | enumCase name hr =>
      cases h' with
      | enumCase name hr' => exact .enumCase name ⟨_, hr, hr'⟩

theorem scopeOk_same {f : FuncId} (h : ScopeOk C u f) (h' : ScopeOk C u' f) :
    Option.Rel (Option.Rel (SameClass C u u')) (u.scopes f)
      (u'.scopes f) := by
  rcases h with ⟨hn, h⟩ | ⟨d, r, hd, h, hr⟩
  · rcases h' with ⟨-, h'⟩ | ⟨d', r', hd', -⟩
    · rw [h, h']
      exact .some .none
    · rw [hn] at hd'
      cases hd'
  · rcases h' with ⟨hn', -⟩ | ⟨d', r', hd', h', hr'⟩
    · rw [hn'] at hd
      cases hd
    · rw [hd] at hd'
      obtain rfl := Option.some.inj hd'
      rw [h, h']
      exact .some (.some ⟨d, hr, hr'⟩)

/-- The constants of an entry, by name. -/
theorem Whole.constants (hC : C.Engine)
    (h : Whole C c s₀ X I L J fuel a u e) (n : Bytes) :
    Option.Rel (ConstOk C u c) ((C.classes c).constants.lookup n)
      (e.constants.lookup n) := by
  obtain rfl := h.origin
  cases hk : e.constants.lookup n with
  | some k =>
      obtain ⟨x, hx, hxn, hok⟩ := h.entry.consts _ (mem_of_lookup hk)
      have hmem : (n, x.2) ∈ (C.classes e.origin).constants := by
        rw [← show x.1 = n from hxn]
        exact hx
      rw [lookup_of_mem (hC.consts _) hmem]
      exact .some hok
  | none =>
      cases hx : (C.classes e.origin).constants.lookup n with
      | none => exact .none
      | some zc =>
          obtain ⟨y, hy, hyn⟩ := h.late.consts _ (mem_of_lookup hx)
          have := List.lookup_eq_none_iff.mp hk y hy
          rw [hyn] at this
          simp at this

variable (hC : C.Engine) (halone : ∀ d, (C.classes d).parent ≠ some c)
  (hvalues : ∀ w ∈ (C.classes c).defaultProperties
    ++ (C.classes c).defaultStatics, ∀ d, w.cls? = some d → d ≠ c)
  (h : Whole C c s₀ X I L J fuel a u e)
  (h' : Whole C c s₀' X' I' L' J' fuel' a' u' e')

include hC halone hvalues h h'

theorem statics_same : Option.Rel (fun t t' => ∃ l l', u.tables[t]? = some l
    ∧ u'.tables[t']? = some l' ∧ List.Forall₂ (SameSlot C u u') l l')
    e.defaultStatics e'.defaultStatics := by
  by_cases hne : (C.classes c).defaultStatics = []
  · rw [h.noStatics hne, h'.noStatics hne]
    exact .none
  · obtain ⟨n, slots, own, v, hn, ht, hside, hpar, hslots, hown⟩ :=
      h.statics hne
    obtain ⟨n', slots', own', v', hn', ht', hside', hpar', hslots', hown'⟩ :=
      h'.statics hne
    rw [hn, hn']
    refine .some ⟨_, _, ht, ht', ?_⟩
    obtain ⟨hcount, hsame⟩ := inheritedSlots_same hC halone hside hside' fuel
      fuel' hpar hpar' hslots hslots'
    rw [← hcount] at hown'
    refine List.rel_append hsame (forall₂_both ?_ hown hown')
    rintro w hw y z ⟨o, ho, rfl⟩ ⟨o', ho', rfl⟩
    have hcls := hvalues w
      (List.mem_append_right _ (List.mem_of_mem_drop hw))
    have hsame := copied_same hcls h.others h'.others ho ho'
    cases hsame with
    | none => exact .raw w
    | some hval => exact .value hval

/-- Two whole entries of the class are the same, but for scopes and
infos. -/
theorem Whole.same
    (hscopes : ∀ x ∈ (C.classes c).functionTable,
      Option.Rel (Option.Rel (SameClass C u u')) (u.scopes x.2)
        (u'.scopes x.2))
    (hinfos : ∀ x ∈ (C.classes c).propertiesInfo,
      Option.Rel (fun i i' => i.offset = i'.offset
        ∧ SameClass C u u' i.ce i'.ce) (u.infos x.2) (u'.infos x.2)) :
    SameEntry C u u' e e' := by
  have hmethods := fun x hx => h.origin ▸ (h.entry.methods x hx).1
  have hmethods' := fun x hx => h'.origin ▸ (h'.entry.methods x hx).1
  have hprops := fun x hx => h.origin ▸ (h.entry.props x hx).1
  have hprops' := fun x hx => h'.origin ▸ (h'.entry.props x hx).1
  refine ⟨rel_both (fun d _ _ hr hr' => ⟨d, hr, hr'⟩) h.parent h'.parent,
    forall₂_both (fun d _ _ _ hr hr' => ⟨d, hr, hr'⟩) h.interfaces
      h'.interfaces, fun x => ⟨?_, ?_⟩, fun x hx => hscopes x (hmethods x hx),
    fun x => ⟨?_, ?_⟩, fun x hx => hinfos x (hprops x hx), ?_,
    statics_same hC halone hvalues h h', fun n => ?_⟩
  · exact fun hx => h'.methods x (hmethods x hx)
  · exact fun hx => h.methods x (hmethods' x hx)
  · exact fun hx => h'.late.props x (h'.origin ▸ hprops x hx)
  · exact fun hx => h.late.props x (h.origin ▸ hprops' x hx)
  · refine forall₂_both ?_ h.defaults h'.defaults
    rintro w hw y z ⟨o, ho, rfl⟩ ⟨o', ho', rfl⟩
    have hcls := hvalues w (List.mem_append_left _ hw)
    have hsame := copied_same hcls h.others h'.others ho ho'
    cases hsame with
    | none => exact .null
    | some hval => exact hval
  · refine rel_both ?_ (h.constants hC n) (h'.constants hC n)
    exact fun zc k k' hk hk' =>
      ⟨⟨_, hk.1, hk'.1⟩, valOk_same hk.2 hk'.2⟩

end Whole

end PmmpThread.Model.Classes
