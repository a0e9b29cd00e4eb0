/-
The recursion of `pmmpthread_create_entry`, and the start of a thread.

# One copy

`createNew` takes an entry through its states: allocated, with parent,
interfaces and methods, in the class table, with late bindings, with its
scopes. Until the end it counts as not whole, and what is copied on the
way is whole. So the invariant holds of `create` for every depth, by
induction on the fuel.

# The start

The first loop makes copies without late bindings, which are then all in
the class table; the second gives each entry of the table its late
bindings. After both, every entry is whole.
-/
import PmmpThread.Proofs.ClassCopies

namespace PmmpThread.Model.Classes

open Zend
open Constants (lower)

section Create

variable {C : Creator} {s₀ s s' : Child} {A I L : Addr → Prop}
  {J : InfoId → Prop} {X : ClassId → Prop} {rec : Prepared}

-- ============================================================== allocation

/-- The set and one more address. -/
def Plus (I : Addr → Prop) (a : Addr) : Addr → Prop := fun b => I b ∨ b = a

theorem newEntry_inv {c : ClassId} (hmut : (C.classes c).immutable = false) :
    EntryInv C X s (C.newEntry c) := by
  refine ⟨rfl, hmut, fun p hp => ?_, fun x hx => ?_, fun x hx => ?_,
    fun y hy => ?_, fun t ht => ?_⟩
  · cases hp
  · cases hx
  · cases hx
  · cases hy
  · cases ht

theorem alloc_inv {c : ClassId} (hc : C.Declared c)
    (hb : C.builtin (.creator c) = false)
    (hmut : (C.classes c).immutable = false)
    (hnone : s.find (lower (C.classes c).name) = none)
    (hs : Inv C s₀ X I L J s) :
    Inv C s₀ X (Plus I s.entries.length) (Plus L s.entries.length) J
        { s with entries := s.entries ++ [C.newEntry c] }
      ∧ Ext C (fun _ => False) s
        { s with entries := s.entries ++ [C.newEntry c] }
      ∧ Quiet (fun _ => False) s
        { s with entries := s.entries ++ [C.newEntry c] } := by
  have hold : ∀ (b : Addr) (e : Entry), s.entries[b]? = some e →
      (s.entries ++ [C.newEntry c])[b]? = some e := by
    intro b e he
    obtain ⟨hlt, -⟩ := List.getElem?_eq_some_iff.mp he
    rw [List.getElem?_append_left hlt]
    exact he
  have hnew : ∀ (b : Addr) (e : Entry),
      (s.entries ++ [C.newEntry c])[b]? = some e →
      s.entries[b]? = some e ∨ b = s.entries.length ∧ e = C.newEntry c := by
    intro b e he
    by_cases hlt : b < s.entries.length
    · rw [List.getElem?_append_left hlt] at he
      exact Or.inl he
    · rw [List.getElem?_append_right (Nat.le_of_not_lt hlt)] at he
      have hzero : b - s.entries.length = 0 := by
        obtain ⟨h, -⟩ := List.getElem?_eq_some_iff.mp he
        exact Nat.lt_one_iff.mp h
      exact Or.inr ⟨Nat.le_antisymm (Nat.sub_eq_zero_iff_le.mp hzero)
        (Nat.le_of_not_lt hlt), List.mem_singleton.mp (List.mem_of_getElem? he)⟩
  have hx : Ext C (fun _ => False) s
      { s with entries := s.entries ++ [C.newEntry c] } := by
    refine ⟨fun _ _ h => h, fun b e he _ => hold b e he,
      fun b e he => ⟨e, hold b e he, rfl, fun _ h => h⟩, fun _ _ h => h,
      fun f hf => ?_, fun _ h => h, fun _ h => h⟩
    exact ScopeOk.of_ident (s := s) (fun b e he => ⟨e, hold b e he, rfl⟩) rfl hf
  refine ⟨⟨(grows_append hs.names hc hb).inv, fun k b e hk he => ?_,
    fun b e he => ?_, fun f hf => (hs.used f hf).ext hx, fun f hf => ?_,
    fun i ic hi => ?_, hs.listed, fun b e he hI => ?_, fun b e he hL => ?_,
    fun b e he hL hI => ?_, fun b hL => ?_⟩, hx, fun _ => Or.inl rfl,
    fun b e he hn => ?_⟩
  · rcases hnew b e he with he | ⟨-, rfl⟩
    · exact hs.flags k b e hk he
    · exact ⟨rfl, rfl⟩
  · rcases hnew b e he with he | ⟨-, rfl⟩
    · exact (hs.entries b e he).mono hx
    · exact newEntry_inv hmut
  · rcases hs.scopes f hf with h | ⟨hp, h⟩
    · exact Or.inl (hx.scopes f h)
    · exact Or.inr ⟨(hp.ext hx).mono fun _ h => Or.inl h, h⟩
  · exact (hs.infos i ic hi).imp_right fun h => ⟨h.1, h.2.mono hx⟩
  · rcases hnew b e he with he | ⟨rfl, -⟩
    · exact (hs.base b e he fun h => hI (Or.inl h)).mono hx
    · exact absurd (Or.inr rfl) hI
  · rcases hnew b e he with he | ⟨rfl, -⟩
    · exact hs.late b e he fun h => hL (Or.inl h)
    · exact absurd (Or.inr rfl) hL
  · rcases hnew b e he with he | ⟨rfl, -⟩
    · rcases hL with hL | rfl
      · exact hs.tabled b e he hL fun h => hI (Or.inl h)
      · exact absurd (Or.inr rfl) hI
    · exact absurd (Or.inr rfl) hI
  · rcases hL with hL | rfl
    · obtain ⟨e, he⟩ := hs.bounded b hL
      exact ⟨e, hold b e he⟩
    · exact ⟨C.newEntry c, List.getElem?_concat_length⟩
  · rcases hnew b e he with he | ⟨-, rfl⟩
    · rw [hn] at he
      cases he
    · exact hnone

-- =========================================================== the class table

/-- What goes into the table under a key that was not there when the copy
began. -/
theorem update_inv {u : Child} {k : Bytes} {r : Ref} (hs : Inv C s₀ X I L J u)
    (hr : Known C u r) (hplaced : C.Placed r)
    (hk : k = lower (u.nameOf C r))
    (hflags : ∀ (a : Addr) (e : Entry), r = .own a → u.entries[a]? = some e →
      e.linked = (C.classes e.origin).linked
        ∧ e.anon = (C.classes e.origin).anon)
    (htabled : ∀ (b : Addr), L b → ¬ I b →
      ∃ k', k' ≠ k ∧ u.find k' = some (.own b)) :
    Inv C s₀ X I L J (u.update k r) := by
  have hident : ∀ (b : Addr) (e : Entry), u.entries[b]? = some e →
      ∃ e', (u.update k r).entries[b]? = some e' ∧ e'.ident = e.ident :=
    fun b e he => ⟨e, he, rfl⟩
  have hkeys : ∀ k', (u.find k').isSome = true →
      ((u.update k r).find k').isSome = true := by
    intro k' hk'
    rw [Child.find_update]
    split
    case isTrue => rfl
    case isFalse => exact hk'
  have hval : ∀ {v w}, ValOk C u v w → ValOk C (u.update k r) v w := by
    intro v w h
    cases h with
    | plain code => exact .plain code
    | enumCase name h => exact .enumCase name h
  refine ⟨(grows_update hs.names hr hplaced hk).inv, fun k' b e hk' he => ?_,
    fun b e he => ?_, hs.used, hs.scopes, hs.infos, hs.listed,
    fun b e he hI => ?_, hs.late, fun b e he hL hI => ?_, hs.bounded⟩
  · rw [Child.find_update] at hk'
    split at hk'
    case isTrue => exact hflags b e (Option.some.inj hk') he
    case isFalse => exact hs.flags k' b e hk' he
  · have h := hs.entries b e he
    refine ⟨h.isEnum, h.mutable, h.parent, h.methods, h.props,
      fun y hy => ?_, h.statics⟩
    obtain ⟨x, hx, hxy, hce, hv⟩ := h.consts y hy
    exact ⟨x, hx, hxy, hce, hval hv⟩
  · have h := hs.base b e he hI
    exact ⟨hkeys _ h.present, h.parent, h.interfaces, h.methods, h.scopes⟩
  · obtain ⟨k', hne, hk'⟩ := htabled b hL hI
    refine ⟨k', ?_⟩
    rw [Child.find_update, if_neg hne]
    exact hk'

theorem update_ext {u : Child} {k : Bytes} {r : Ref} (hx : Ext C A s u)
    (hnone : s.find k = none) : Ext C A s (u.update k r) := by
  refine ⟨fun k' p h => ?_, hx.entries, hx.ident, hx.tables, hx.scopes,
    hx.copied, hx.infos⟩
  rw [Child.find_update, if_neg]
  · exact hx.find k' p h
  · rintro rfl
    rw [hnone] at h
    cases h

/-- What is in the table already is there under other keys. -/
theorem Inv.tabled_ne {k : Bytes} (hs : Inv C s₀ X I L J s)
    (hnone : s.find k = none) {b : Addr} (hL : L b) (hI : ¬ I b) :
    ∃ k', k' ≠ k ∧ s.find k' = some (.own b) := by
  obtain ⟨e, he⟩ := hs.bounded b hL
  obtain ⟨k', hk'⟩ := hs.tabled b e he hL hI
  refine ⟨k', ?_, hk'⟩
  rintro rfl
  rw [hnone] at hk'
  cases hk'

/-- The new entry `e` goes into the table. -/
theorem insertNew_inv {u : Child} {a : Addr} {e : Entry}
    (hs : Inv C s₀ X I L J s) (hnone : s.find (lower e.name) = none)
    (hx : Ext C (fun _ => False) s u)
    (hu : Inv C s₀ X (Plus I a) (Plus L a) J u)
    (he : u.entries[a]? = some e)
    (hflags : e.linked = (C.classes e.origin).linked
      ∧ e.anon = (C.classes e.origin).anon) :
    Inv C s₀ X (Plus I a) (Plus L a) J
      (u.update (lower e.name) (.own a)) := by
  have hname : lower e.name = lower (u.nameOf C (.own a)) := by
    show _ = lower ((u.entries[a]?.map Entry.name).getD [])
    rw [he]
    rfl
  refine update_inv hu ⟨e, he⟩ trivial hname (fun b e' hb he' => ?_)
    fun b hL hI => ?_
  · rw [← Ref.own.inj hb, he] at he'
    rw [← Option.some.inj he']
    exact hflags
  · obtain ⟨k, hne, hk⟩ := hs.tabled_ne hnone
      (hL.resolve_right fun h => hI (Or.inr h)) fun h => hI (Or.inl h)
    exact ⟨k, hne, hx.find k _ hk⟩

-- ========================================================= an entry is whole

/-- Methods and scopes of an entry are done. -/
theorem Inv.base_done {a : Addr} {e : Entry} {k : Bytes}
    (hs : Inv C s₀ X (Plus I a) L J s) (he : s.entries[a]? = some e)
    (hbase : Base C s e) (hk : s.find k = some (.own a)) :
    Inv C s₀ X I L J s := by
  refine ⟨hs.names, hs.flags, hs.entries, hs.used, fun f hf => ?_, hs.infos,
    hs.listed, fun b eb heb hI => ?_, hs.late, fun b eb heb hL hI => ?_,
    hs.bounded⟩
  · rcases hs.scopes f hf with h | ⟨⟨b, eb, n, hI, heb, hm⟩, h⟩
    · exact Or.inl h
    · rcases hI with hI | rfl
      · exact Or.inr ⟨⟨b, eb, n, hI, heb, hm⟩, h⟩
      · rw [Option.some.inj (heb.symm.trans he)] at hm
        exact Or.inl (hbase.scopes _ hm)
  · by_cases hb : b = a
    · subst hb
      exact Option.some.inj (he.symm.trans heb) ▸ hbase
    · exact hs.base b eb heb fun h => h.elim hI hb
  · by_cases hb : b = a
    · exact ⟨k, hb ▸ hk⟩
    · exact hs.tabled b eb heb hL fun h => h.elim hI hb

/-- So are its late bindings. -/
theorem Inv.late_done {a : Addr} {e : Entry}
    (hs : Inv C s₀ X I (Plus L a) J s) (he : s.entries[a]? = some e)
    (hlate : Late C e) : Inv C s₀ X I L J s := by
  refine ⟨hs.names, hs.flags, hs.entries, hs.used, hs.scopes, hs.infos,
    hs.listed, hs.base, fun b eb heb hL => ?_,
    fun b eb heb hL hI => hs.tabled b eb heb (Or.inl hL) hI,
    fun b hL => hs.bounded b (Or.inl hL)⟩
  by_cases hb : b = a
  · subst hb
    exact Option.some.inj (he.symm.trans heb) ▸ hlate
  · exact hs.late b eb heb fun h => h.elim hL hb

theorem LateOf.mono {u : Child} {fuel : Nat} {a : Addr} {e e' : Entry}
    (h : LateOf C s₀ X I L J fuel a e u e')
    (hx : Ext C (fun _ => False) u s') :
    LateOf C s₀ X I L J fuel a e s' e' := by
  refine ⟨hx.entries a e' h.entry id, h.core, h.late,
    h.defaults.imp fun _ _ ⟨o, hval, hw⟩ => ⟨o, hval.mono hx, hw⟩,
    h.noStatics, fun hne => ?_⟩
  obtain ⟨n, slots, own, v, hn, htab, hv, hext, hp, hslots, hown⟩ :=
    h.statics hne
  exact ⟨n, slots, own, v, hn, hx.tables n _ htab, hv,
    hext.trans (hx.weaken fun _ _ _ h => h.elim), hp, hslots,
    hown.imp fun _ _ ⟨o, hval, hw⟩ => ⟨o, hval.mono hx, hw⟩⟩

theorem Entry.core_eq {e e' : Entry} (h : e'.core = e.core) :
    e'.origin = e.origin ∧ e'.name = e.name ∧ e'.parent = e.parent
      ∧ e'.interfaces = e.interfaces ∧ e'.functionTable = e.functionTable := by
  obtain ⟨hi, -, -, -, hp, hif, hm⟩ := by
    simpa only [Entry.core, Prod.mk.injEq] using h
  exact ⟨(Prod.mk.inj hi).1, (Prod.mk.inj hi).2, hp, hif, hm⟩

/-- The late bindings, if there are to be any. -/
theorem lateBindings_if (hC : C.Engine) (h₀ : Fresh C s₀)
    (hX : ∀ d x, (C.classes d).parent = some x → ¬ X x)
    (hrec : RecInv C s₀ X rec) {fuel : Nat} {c : ClassId} {a : Addr}
    {e : Entry} {late : Bool} (hc : C.Declared c) (hL : L a)
    (hs : Inv C s₀ X I L J s) (he : s.entries[a]? = some e)
    (ho : e.origin = c) (hl : e.linked = (C.classes c).linked)
    (h : (if late = true then C.lateBindings fuel rec c a s else some s)
      = some s') :
    Go C s₀ X I L J (· = a) s s' ∧ ∃ e', s'.entries[a]? = some e'
      ∧ e'.core = e.core
      ∧ (late = true → LateOf C s₀ X I L J fuel a e s' e') := by
  cases late with
  | false =>
      injection h with h
      exact h ▸ ⟨Go.refl hs, e, he, rfl, fun h => by cases h⟩
  | true =>
      obtain ⟨hgo, e', hof⟩ :=
        lateBindings_go hC h₀ hX hrec hc hL hs he ho hl h
      exact ⟨hgo, e', hof.entry, hof.core, fun _ => hof⟩

-- ============================================================== a new copy

/-- What a new copy is. -/
structure NewCopy (C : Creator) (s₀ : Child) (X : ClassId → Prop)
    (I L : Addr → Prop) (J : InfoId → Prop) (fuel : Nat) (c : ClassId)
    (late : Bool) (s : Child) (q : Ref × Child) : Prop where
  ref : q.1 = .own s.entries.length
  inv : Inv C s₀ X I
    (if late then L else Plus L s.entries.length) J q.2
  ext : Ext C (fun _ => False) s q.2
  infos : ∀ (i : InfoId) (ic : InfoCopy), s.infos i = some ic →
    q.2.infos i = some ic
  quiet : Quiet (fun _ => False) s q.2
  find : q.2.find (lower (C.classes c).name) = some q.1
  late : late = true → ∃ e e', LateOf C s₀ X (Plus I s.entries.length)
    (Plus L s.entries.length) J fuel s.entries.length e q.2 e'
    ∧ e.origin = c

theorem createNew_copy (hC : C.Engine) (h₀ : Fresh C s₀)
    (hX : ∀ d x, (C.classes d).parent = some x → ¬ X x) {dep : Prepared}
    (hrec : RecInv C s₀ X rec) {fuel : Nat} {c : ClassId} {late : Bool}
    {q : Ref × Child} (hc : C.Declared c)
    (hb : C.builtin (.creator c) = false)
    (hmut : (C.classes c).immutable = false)
    (hnone : s.find (lower (C.classes c).name) = none)
    (hs : Inv C s₀ X I L J s)
    (h : C.createNew fuel rec dep c late s = some q) :
    NewCopy C s₀ X I L J fuel c late s q := by
  unfold Creator.createNew at h
  dsimp only at h
  rw [hmut, if_neg Bool.false_ne_true] at h
  obtain ⟨u, hu, h⟩ := Option.bind_eq_some_iff.mp h
  obtain ⟨v, hv, h⟩ := Option.bind_eq_some_iff.mp h
  obtain ⟨w, hw, rfl⟩ := Option.map_eq_some_iff.mp h
  -- allocated
  obtain ⟨hs₁, hx₁, hq₁⟩ := alloc_inv hc hb hmut hnone hs
  have hnew : ∀ e, s.entries[s.entries.length]? ≠ some e := by
    intro e he
    obtain ⟨hlt, -⟩ := List.getElem?_eq_some_iff.mp he
    exact Nat.lt_irrefl _ hlt
  -- parent, interfaces and methods
  obtain ⟨hgo₂, p, is, l, he₂, hlinked, hmethods⟩ :=
    completeEntry_go hC h₀ hrec hc (Or.inr rfl) (Or.inr rfl) hs₁
      List.getElem?_concat_length rfl rfl hu
  have hx₂ : Ext C (fun _ => False) s u := by
    refine ((hx₁.weaken fun _ _ _ h => h.elim).trans hgo₂.ext).weaken ?_
    rintro b e he rfl
    exact absurd he (hnew e)
  -- in the class table
  have hs₃ : Inv C s₀ X (Plus I s.entries.length) (Plus L s.entries.length) J
      (u.update (lower (C.classes c).name) (.own s.entries.length)) :=
    insertNew_inv hs hnone hx₂ hgo₂.inv he₂ ⟨rfl, rfl⟩
  have hx₃ : Ext C (fun _ => False) s
      (u.update (lower (C.classes c).name) (.own s.entries.length)) :=
    update_ext hx₂ hnone
  have hfind₃ : (u.update (lower (C.classes c).name)
      (.own s.entries.length)).find (lower (C.classes c).name)
        = some (.own s.entries.length) := by
    rw [Child.find_update, if_pos rfl]
  obtain ⟨hgo₄, e', he', hcore, hof⟩ := lateBindings_if hC h₀ hX hrec hc
    (Or.inr rfl) hs₃ he₂ rfl rfl hv
  obtain ⟨ho, hn, hpar, hif, hm⟩ := Entry.core_eq hcore
  -- with the scopes of its methods
  obtain ⟨hgo₅, hscopes⟩ := updateScopes_go hC h₀ hrec hc hgo₄.inv he' ho hw
  have he₅ := hgo₅.ext.entries _ e' he' id
  have hx₅ := hgo₄.ext.trans (hgo₅.ext.weaken fun _ _ _ h => h.elim)
  have hfind₅ := hx₅.find _ _ hfind₃
  have hbase : Base C w e' := by
    refine ⟨?_, fun hl => ?_, fun hl => ?_, fun x hx => ?_, hscopes⟩
    · rw [hn]
      show (w.find (lower (C.classes c).name)).isSome = true
      rw [hfind₅]
      rfl
    · rw [ho] at hl ⊢
      rw [hpar]
      exact (hlinked hl).1
    · rw [ho] at hl ⊢
      rw [hif]
      exact (hlinked hl).2.imp fun _ _ hcopy =>
        IsCopy.mono hx₅ hcopy
    · rw [ho] at hx
      rw [hm]
      exact hmethods x hx
  have hdone := hgo₅.inv.base_done he₅ hbase hfind₅
  -- up to the table, then the late bindings, then the scopes
  have hq₂ := hq₁.trans hx₁ hgo₂.quiet hgo₂.ext
  have hq₃ : Quiet (fun _ => False) s
      (u.update (lower (C.classes c).name) (.own s.entries.length)) :=
    ⟨hq₂.scopes, hq₂.news⟩
  have hq₄ := hq₃.trans hx₃ hgo₄.quiet hgo₄.ext
  have hq₅ : Quiet (fun f => ∃ n, (n, f) ∈ e'.functionTable) s w :=
    Quiet.trans ⟨fun f => (hq₄.scopes f).imp_right fun h =>
      h.imp_right False.elim, hq₄.news⟩
      ((hx₃.weaken fun _ _ _ h => h.elim).trans hgo₄.ext) hgo₅.quiet hgo₅.ext
  refine ⟨rfl, ?_, ?_, fun i ic hi => ?_, ⟨fun f => ?_, hq₅.news⟩, hfind₅,
    fun hl => ?_⟩
  · cases late with
    | false => exact hdone
    | true => exact hdone.late_done he₅ (hof rfl).late
  · refine ((hx₃.weaken fun _ _ _ h => h.elim).trans hx₅).weaken ?_
    rintro b e he rfl
    exact absurd he (hnew e)
  · exact hgo₅.infos i ic (hgo₄.infos i ic (hgo₂.infos i ic hi))
  · rcases hq₅.scopes f with hf | hf | ⟨n, hm⟩
    · exact Or.inl hf
    · exact Or.inr (Or.inl hf)
    · exact Or.inr (Or.inl ⟨_, e', n, he₅, hm,
        fun e₀ he₀ => absurd he₀ (hnew e₀)⟩)
  · exact ⟨_, e', (hof hl).mono hgo₅.ext, rfl⟩

-- =============================================================== the recursion

/-- What a call does that may leave the late bindings out. -/
def CallInv (C : Creator) (s₀ : Child) (X : ClassId → Prop) (late : Bool)
    (call : Prepared) : Prop :=
  ∀ I L J r s q, Inv C s₀ X I L J s → Known C s r → call r s = some q →
    ∃ L' : Addr → Prop, (late = true → L' = L) ∧ (∀ b, L b → L' b)
      ∧ Go C s₀ X I L' J (fun _ => False) s q.2
      ∧ q.2.find (lower (s.nameOf C r)) = some q.1

theorem CallInv.recInv {call : Prepared} (h : CallInv C s₀ X true call) :
    RecInv C s₀ X call := by
  intro I L J r s q hs hr hq
  obtain ⟨L', hL, -, hgo, hfind⟩ := h I L J r s q hs hr hq
  rw [hL rfl] at hgo
  exact ⟨hgo, hfind⟩

theorem prepareAll_call {late : Bool} {dep : Prepared}
    (hdep : CallInv C s₀ X late dep) : ∀ (rs : List Ref) {L : Addr → Prop}
      {s : Child} {q : List Ref × Child}, (∀ r ∈ rs, Original C r) →
      Inv C s₀ X I L J s → Creator.prepareAll dep rs s = some q →
      ∃ L' : Addr → Prop, (late = true → L' = L) ∧ (∀ b, L b → L' b)
        ∧ Go C s₀ X I L' J (fun _ => False) s q.2 := by
  intro rs
  induction rs with
  | nil =>
      intro L s q _ hs h
      injection h with h
      exact h ▸ ⟨L, fun _ => rfl, fun _ h => h, Go.refl hs⟩
  | cons r rs ih =>
      intro L s q hr hs h
      obtain ⟨p, hp, h⟩ := Option.bind_eq_some_iff.mp h
      obtain ⟨qs, hqs, rfl⟩ := Option.map_eq_some_iff.mp h
      obtain ⟨d, rfl, hd⟩ := hr r List.mem_cons_self
      obtain ⟨L₁, hL₁, hsub₁, hgo₁, -⟩ := hdep I L J (.creator d) s p hs hd hp
      obtain ⟨L₂, hL₂, hsub₂, hgo₂⟩ :=
        ih (fun e he => hr e (List.mem_cons_of_mem _ he)) hgo₁.inv hqs
      exact ⟨L₂, fun h => (hL₂ h).trans (hL₁ h),
        fun b hb => hsub₂ b (hsub₁ b hb), hgo₂.inv, hgo₁.ext.trans hgo₂.ext,
        fun i ic hi => hgo₂.infos i ic (hgo₁.infos i ic hi),
        hgo₁.quiet.trans hgo₁.ext hgo₂.quiet hgo₂.ext⟩

theorem createNew_call (hC : C.Engine) (h₀ : Fresh C s₀)
    (hX : ∀ d x, (C.classes d).parent = some x → ¬ X x) {dep : Prepared}
    {late : Bool} (hrec : RecInv C s₀ X rec)
    (hdep : CallInv C s₀ X late dep) {fuel : Nat} {c : ClassId}
    {q : Ref × Child} (hc : C.Declared c)
    (hb : C.builtin (.creator c) = false)
    (hnone : s.find (lower (C.classes c).name) = none)
    (hs : Inv C s₀ X I L J s)
    (h : C.createNew fuel rec dep c late s = some q) :
    ∃ L' : Addr → Prop, (late = true → L' = L) ∧ (∀ b, L b → L' b)
      ∧ Go C s₀ X I L' J (fun _ => False) s q.2
      ∧ q.2.find (lower (C.classes c).name) = some q.1 := by
  cases himm : (C.classes c).immutable with
  | false =>
      have hnew := createNew_copy hC h₀ hX hrec hc hb himm hnone hs h
      refine ⟨_, fun hl => ?_, fun b hL => ?_,
        ⟨hnew.inv, hnew.ext, hnew.infos, hnew.quiet⟩, hnew.find⟩
      · rw [if_pos hl]
      · split
        case isTrue => exact hL
        case isFalse => exact Or.inl hL
  | true =>
      unfold Creator.createNew at h
      dsimp only at h
      rw [himm, if_pos rfl] at h
      obtain ⟨p, hp, rfl⟩ := Option.map_eq_some_iff.mp h
      have hs₁ : Inv C s₀ X I L J
          (s.update (lower (C.classes c).name) (.creator c)) := by
        refine update_inv hs hc ⟨hb, himm⟩ rfl (fun a e ha => by cases ha)
          fun b hL hI => hs.tabled_ne hnone hL hI
      have hx₁ : Ext C (fun _ => False) s
          (s.update (lower (C.classes c).name) (.creator c)) :=
        update_ext (Ext.refl C _ s) hnone
      obtain ⟨L', hL', hsub, hgo⟩ := prepareAll_call hdep _
        (immutableDependencies_declared hC.toWellFormed hc) hs₁ hp
      have hq₁ : Quiet (fun _ => False) s
          (s.update (lower (C.classes c).name) (.creator c)) :=
        Quiet.of_same rfl fun _ e he => ⟨e, he⟩
      refine ⟨L', hL', hsub, ⟨hgo.inv, hx₁.trans hgo.ext, hgo.infos,
        hq₁.trans hx₁ hgo.quiet hgo.ext⟩, hgo.ext.find _ _ ?_⟩
      rw [Child.find_update, if_pos rfl]

/-- The class that a pointer is to, or to a copy of. -/
theorem Known.class (hs : NameInv C s₀ s) {r : Ref} (h : Known C s r) :
    ∃ d, C.Declared d ∧ (r = .creator d ∨ IsCopy C s d r) := by
  cases r with
  | creator d => exact ⟨d, h, Or.inl rfl⟩
  | own a =>
      obtain ⟨e, he⟩ := h
      exact ⟨e.origin, (hs.entries a e he).2.1, Or.inr ⟨e, he, rfl⟩⟩

/-- An unlinked copy of a linked class is not in the table. -/
theorem not_unbound (hs : Inv C s₀ X I L J s) {k : Bytes} {p : Ref}
    {d : ClassId} (hk : s.find k = some p) (hp : IsCopy C s d p)
    (hunbound : C.isUnbound s p = true) :
    C.isBound s (.creator d) = false := by
  have hunlinked : (C.classes d).linked = false := by
    cases p with
    | creator c =>
        have h : ((C.classes c).anon && !(C.classes c).linked) = true :=
          hunbound
        rw [Bool.and_eq_true, Bool.not_eq_true'] at h
        exact hp.1 ▸ h.2
    | own a =>
        obtain ⟨e, he, rfl⟩ := hp
        have h : (s.entries[a]?.any fun e => e.anon && !e.linked) = true :=
          hunbound
        rw [he, Option.any_some, Bool.and_eq_true, Bool.not_eq_true'] at h
        rw [← (hs.flags k a e hk he).1]
        exact h.2
  show ((C.classes d).anon && (C.classes d).linked) = false
  rw [hunlinked, Bool.and_false]

/-- Whatever is not whole when it begins, a copy leaves it so, and what it
makes is whole. -/
theorem create_inv (hC : C.Engine) (h₀ : Fresh C s₀)
    (hX : ∀ d x, (C.classes d).parent = some x → ¬ X x) (fuel : Nat) :
    ∀ late, CallInv C s₀ X late fun r s => C.create fuel r late s := by
  induction fuel with
  | zero =>
      intro late I L J r s q _ _ h
      cases h
  | succ fuel ih =>
      intro late I L J r s q hs hr h
      obtain ⟨d, hd, hrd⟩ := hr.class hs.names
      have hname : s.nameOf C r = (C.classes d).name := by
        rcases hrd with rfl | hrd
        · rfl
        · exact hrd.nameOf hs.names
      have hsame : ∀ p, s.find (lower (s.nameOf C r)) = some p →
          some (p, s) = some q → ∃ L' : Addr → Prop, (late = true → L' = L)
            ∧ (∀ b, L b → L' b) ∧ Go C s₀ X I L' J (fun _ => False) s q.2
            ∧ q.2.find (lower (s.nameOf C r)) = some q.1 := by
        intro p hp hq
        rw [← Option.some.inj hq]
        exact ⟨L, fun _ => rfl, fun _ h => h, Go.refl hs, hp⟩
      dsimp only [Creator.create] at h
      split at h
      case isTrue =>
        obtain ⟨p, hp, hq⟩ := Option.map_eq_some_iff.mp h
        exact hsame p hp (congrArg some hq)
      case isFalse hb =>
        rw [Bool.not_eq_true] at hb
        split at h
        case h_1 c hnone =>
          exact createNew_call hC h₀ hX (ih true).recInv (ih late) hr hb
            hnone hs h
        case h_2 => cases h
        case h_3 r _ _ p hp =>
          split at h
          case isFalse => exact hsame p hp h
          case isTrue hub =>
            rw [Bool.and_eq_true] at hub
            have hcopy : IsCopy C s d p :=
              hs.names.find_isCopy hC h₀ hd (hname ▸ hp)
            have hnot := not_unbound hs hp hcopy hub.1
            split at h
            case h_1 a c _ =>
              rcases hrd with hrd | hrd
              · rw [hrd, hnot] at hub
                cases hub.2
              · rw [hrd.1] at hub
                rw [hnot] at hub
                cases hub.2
            case h_2 c' c _ =>
              rcases hrd with hrd | hrd
              · rw [hrd, hnot] at hub
                cases hub.2
              · rw [hrd.1] at hub
                rw [hnot] at hub
                cases hub.2
            case h_3 => exact hsame _ hp h

theorem create_recInv (hC : C.Engine) (h₀ : Fresh C s₀)
    (hX : ∀ d x, (C.classes d).parent = some x → ¬ X x) (fuel : Nat) :
    RecInv C s₀ X fun r s => C.create fuel r true s :=
  (create_inv hC h₀ hX fuel true).recInv

-- ============================================================ thread start

theorem Fresh.start (h : Fresh C s) :
    Inv C s X (fun _ => False) (fun _ => False) (fun _ => False) s := by
  have hno : ∀ (a : Addr) (e : Entry), s.entries[a]? ≠ some e := by
    intro a e he
    rw [h.entries] at he
    cases he
  refine ⟨h.inv, fun k a e _ he => absurd he (hno a e),
    fun a e he => absurd he (hno a e), fun f hf => ?_, fun f hf => ?_,
    fun i ic hi => ?_, fun i hi => ?_, fun a e he => absurd he (hno a e),
    fun a e he => absurd he (hno a e), fun a e he => absurd he (hno a e),
    fun a ha => ha.elim⟩
  · rw [h.scopes] at hf
    cases hf
  · rw [h.scopes] at hf
    cases hf
  · rw [h.infos] at hi
    cases hi
  · rw [h.infos] at hi
    cases hi

/-- An entry of the table may be taken as one without late bindings. -/
theorem Inv.unlate {M : Addr → Prop} (hs : Inv C s₀ X I L J s)
    (hsub : ∀ b, L b → M b)
    (hM : ∀ b, M b → L b ∨ ∃ k e, s.find k = some (.own b)
      ∧ s.entries[b]? = some e) : Inv C s₀ X I M J s := by
  refine ⟨hs.names, hs.flags, hs.entries, hs.used, hs.scopes, hs.infos,
    hs.listed, hs.base, fun b e he hb => hs.late b e he fun h => hb (hsub b h),
    fun b e he hb hI => ?_, fun b hb => ?_⟩
  · rcases hM b hb with h | ⟨k, -, hk, -⟩
    · exact hs.tabled b e he h hI
    · exact ⟨k, hk⟩
  · rcases hM b hb with h | ⟨-, e, -, he⟩
    · exact hs.bounded b h
    · exact ⟨e, he⟩

section Start

variable (hC : C.Engine) (h₀ : Fresh C s₀)
  (hX : ∀ d x, (C.classes d).parent = some x → ¬ X x)

include hC h₀ hX

theorem prepareClass_inv {fuel : Nat} {e : Bytes × ClassId}
    (he : e ∈ C.classTable) (hs : Inv C s₀ X I L J s)
    (h : C.prepareClass fuel s e = some s') :
    ∃ L' : Addr → Prop, Inv C s₀ X I L' J s' := by
  unfold Creator.prepareClass at h
  split at h
  case isFalse =>
    injection h with h
    exact h ▸ ⟨L, hs⟩
  case isTrue hk =>
    rw [Bool.and_eq_true, Bool.not_eq_true'] at hk
    obtain ⟨q, hq, rfl⟩ := Option.map_eq_some_iff.mp h
    obtain ⟨L', -, -, hgo, -⟩ := create_inv hC h₀ hX fuel false I L J
      (.creator e.2) s q hs (hC.named e he hk.2) hq
    exact ⟨L', hgo.inv⟩

theorem prepareClasses_inv {fuel : Nat} (l : List (Bytes × ClassId)) :
    ∀ {L : Addr → Prop} {s : Child}, (∀ e ∈ l, e ∈ C.classTable) →
      Inv C s₀ X I L J s → l.foldlM (C.prepareClass fuel) s = some s' →
      ∃ L' : Addr → Prop, Inv C s₀ X I L' J s' := by
  intro L s hl hs h
  exact foldlM_induct (P := fun u => ∃ L', Inv C s₀ X I L' J u) l
    (fun he ⟨_, hu⟩ h => prepareClass_inv hC h₀ hX (hl _ he) hu h) ⟨L, hs⟩ h

/-- One entry of the table gets its late bindings. -/
theorem contextLateBinding_inv {fuel : Nat} {e : Bytes × Ref}
    (hs : Inv C s₀ X I L J s) (hk : s.find e.1 = some e.2)
    (h : C.contextLateBinding fuel s e = some s') :
    Inv C s₀ X I (fun b => L b ∧ e.2 ≠ .own b) J s'
      ∧ ∀ k p, s.find k = some p → s'.find k = some p := by
  obtain ⟨k, r⟩ := e
  cases r with
  | creator c =>
      injection h with h
      subst h
      refine ⟨?_, fun _ _ h => h⟩
      have hL : (fun b => L b ∧ Ref.creator c ≠ .own b) = L := by
        funext b
        exact propext ⟨And.left, fun h => ⟨h, fun h => by cases h⟩⟩
      rw [hL]
      exact hs
  | own a =>
      obtain ⟨c, hc, h⟩ := Option.bind_eq_some_iff.mp h
      obtain ⟨d, hd, hdec, ⟨e, he, ho⟩, -⟩ := hs.names.isCopy h₀ hk
      have hcd : c = d := Option.some.inj (hc.symm.trans hd)
      subst hcd
      have hun : Inv C s₀ X I
          (Plus (fun b => L b ∧ Ref.own a ≠ .own b) a) J s := by
        refine hs.unlate (fun b hb => ?_) fun b hb => ?_
        · by_cases hba : b = a
          · exact Or.inr hba
          · exact Or.inl ⟨hb, fun h => hba (Ref.own.inj h).symm⟩
        · rcases hb with hb | rfl
          · exact Or.inl hb.1
          · exact Or.inr ⟨k, e, hk, he⟩
      have hlinked : e.linked = (C.classes c).linked :=
        ho ▸ (hs.flags k a e hk he).1
      obtain ⟨hgo, e', hof⟩ := lateBindings_go hC h₀ hX
        (create_recInv hC h₀ hX fuel) hdec (Or.inr rfl) hun he ho hlinked h
      exact ⟨hgo.inv.late_done hof.entry hof.late, hgo.ext.find⟩

theorem contextLateBindings_inv {fuel : Nat} {u : Child}
    (l : List (Bytes × Ref)) : ∀ {L : Addr → Prop} {s : Child},
      (∀ e ∈ l, u.find e.1 = some e.2) →
      (∀ k p, u.find k = some p → s.find k = some p) →
      Inv C s₀ X I L J s → l.foldlM (C.contextLateBinding fuel) s = some s' →
      ∃ L' : Addr → Prop, Inv C s₀ X I L' J s'
        ∧ ∀ b, L' b → L b ∧ ∀ e ∈ l, e.2 ≠ .own b := by
  intro L s hl hu hs h
  refine (foldlM_rounds (P := fun pre v =>
    (∀ k p, u.find k = some p → v.find k = some p)
      ∧ ∃ L' : Addr → Prop, Inv C s₀ X I L' J v
        ∧ ∀ b, L' b → L b ∧ ∀ e ∈ pre, e.2 ≠ .own b) l
    ⟨hu, L, hs, fun b hb => ⟨hb, fun e he => by cases he⟩⟩ ?_ h).2
  rintro pre e post v v' hle - ⟨hv, L', hs', hL'⟩ hround
  have hk := hl e (hle ▸ List.mem_append_right _ List.mem_cons_self)
  obtain ⟨hinv, hfind⟩ :=
    contextLateBinding_inv hC h₀ hX hs' (hv _ _ hk) hround
  refine ⟨fun k p h => hfind k p (hv k p h), _, hinv, fun b hb =>
    ⟨(hL' b hb.1).1, fun e' he' => ?_⟩⟩
  rcases List.mem_append.mp he' with he' | he'
  · exact (hL' b hb.1).2 e' he'
  · exact List.mem_singleton.mp he' ▸ hb.2

end Start

/-- Every entry is whole. -/
abbrev Settled (C : Creator) (s₀ s : Child) : Prop :=
  Inv C s₀ (fun _ => False) (fun _ => False) (fun _ => False)
    (fun _ => False) s

/-- A thread that has started. -/
theorem prepareClasses_settled (hC : C.Engine) (h₀ : Fresh C s) {fuel : Nat}
    (h : C.prepareClasses fuel s = some s') : Settled C s s' := by
  obtain ⟨u, hu, h⟩ := Option.bind_eq_some_iff.mp h
  obtain ⟨L, hs⟩ := prepareClasses_inv hC h₀ (fun _ _ _ h => h) C.classTable
    (fun _ he => he) h₀.start hu
  obtain ⟨L', hs', hL'⟩ := contextLateBindings_inv hC h₀ (fun _ _ _ h => h)
    u.classTable (fun e he => lookup_of_mem hs.names.nodup he)
    (fun _ _ h => h) hs h
  have hnone : ∀ b, ¬ L' b := by
    intro b hb
    obtain ⟨hL, hnot⟩ := hL' b hb
    obtain ⟨e, he⟩ := hs.bounded b hL
    obtain ⟨k, hk⟩ := hs.tabled b e he hL id
    exact hnot (k, .own b) (mem_of_lookup hk) rfl
  have hempty : L' = fun _ => False := funext fun b => eq_false (hnone b)
  rw [hempty] at hs'
  exact hs'

end Create

end PmmpThread.Model.Classes
