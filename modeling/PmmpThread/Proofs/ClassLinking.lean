/-
An anonymous class that is copied before it is linked and completed later.

# Linking

The engine links a class once: the entry gets its parent and interfaces,
methods and properties that it inherits or takes from traits, and the
offsets of its own properties move behind those of the parent
(`Linking`). A thread that has copied the entry before gets the rest when
it asks for the class again.

# What stays right

The second pass adds what is not there by name. A method of a trait is
copied with the creator's scope, and nothing changes that afterwards; a
property that was there keeps the offset it had. All else that the thread
has is as right for the linked class as it was before (`Linking.inv`), and
a thread without a copy of the class does not notice (`Linking.settled`).
-/
import PmmpThread.Proofs.ClassCreate

namespace PmmpThread.Model.Classes

open Constants (lower)

-- ================================================================== linking

/-- `C₂` is the creator `C₁` after it has linked the anonymous class `c`. -/
structure Linking (C₁ C₂ : Creator) (c : ClassId) : Prop where
  declared : C₁.Declared c
  table : C₂.classTable = C₁.classTable
  others : ∀ d, d ≠ c → C₂.classes d = C₁.classes d
  name : (C₂.classes c).name = (C₁.classes c).name
  anon : (C₁.classes c).anon = true ∧ (C₂.classes c).anon = true
  linked : (C₁.classes c).linked = false ∧ (C₂.classes c).linked = true
  user : C₁.builtin (.creator c) = false ∧ C₂.builtin (.creator c) = false
  mutable : (C₁.classes c).immutable = false
    ∧ (C₂.classes c).immutable = false
  noEnum : (C₁.classes c).isEnum = false ∧ (C₂.classes c).isEnum = false
  /-- No class that is linked has it as a parent, and it is not its own
  interface. -/
  alone : ∀ d, (C₂.classes d).parent ≠ some c
  interfaces : c ∉ (C₂.classes c).interfaces
  scope : ∀ d, ∀ x ∈ (C₁.classes d).functionTable, C₂.scope x.2 = C₁.scope x.2
  methods : ∀ x ∈ (C₁.classes c).functionTable,
    x ∈ (C₂.classes c).functionTable
  /-- A method that is added is inherited, or new, of a trait. -/
  added : ∀ x ∈ (C₂.classes c).functionTable,
    x ∉ (C₁.classes c).functionTable →
      (C₂.scope x.2 ≠ some c ∧ ∃ d, ((C₂.classes c).parent = some d
        ∨ d ∈ (C₂.classes c).interfaces)
          ∧ ∃ n, (n, x.2) ∈ (C₂.classes d).functionTable)
      ∨ C₂.scope x.2 = some c
        ∧ ∀ d n, (n, x.2) ∉ (C₁.classes d).functionTable
  props : ∀ x ∈ (C₁.classes c).propertiesInfo,
    x ∈ (C₂.classes c).propertiesInfo ∧ (C₁.info x.2).ce = c
  /-- Only the class's own offsets move. -/
  infos : ∀ d, ∀ x ∈ (C₁.classes d).propertiesInfo,
    (C₂.info x.2).ce = (C₁.info x.2).ce
      ∧ (d ≠ c → (C₂.info x.2).offset = (C₁.info x.2).offset)
  consts : ∀ x ∈ (C₁.classes c).constants, x ∈ (C₂.classes c).constants
  statics : (C₁.classes c).defaultStatics ≠ [] →
    (C₂.classes c).defaultStatics ≠ []

section Linked

variable {C₁ C₂ : Creator} {c : ClassId} {s₀ s s' : Child}

namespace Linking

/-- Linking a class changes neither what is built in nor what is immutable,
-/
theorem shared (hL : Linking C₁ C₂ c) (d : ClassId) :
    C₂.builtin (.creator d) = C₁.builtin (.creator d)
      ∧ (C₂.classes d).immutable = (C₁.classes d).immutable := by
  by_cases hd : d = c
  · rw [hd, hL.user.1, hL.user.2, hL.mutable.1, hL.mutable.2]
    exact ⟨rfl, rfl⟩
  · refine ⟨?_, ?_⟩
    · show ((C₂.classes d).internal || (C₂.classes d).preloaded) = _
      rw [hL.others d hd]
      rfl
    · rw [hL.others d hd]

/-- nor names, -/
theorem names (hL : Linking C₁ C₂ c) (d : ClassId) :
    (C₂.classes d).name = (C₁.classes d).name := by
  by_cases hd : d = c
  · rw [hd, hL.name]
  · rw [hL.others d hd]

/-- nor what is declared, -/
theorem declared_iff (hL : Linking C₁ C₂ c) (d : ClassId) :
    C₂.Declared d ↔ C₁.Declared d := by
  unfold Creator.Declared
  rw [(hL.shared d).1, hL.table, hL.names d]

/-- nor what is a copy of what. -/
theorem isCopy_iff (hL : Linking C₁ C₂ c) (d : ClassId) (r : Ref) :
    IsCopy C₂ s d r ↔ IsCopy C₁ s d r := by
  cases r with
  | creator e =>
      show (e = d ∧ (_ ∨ _)) ↔ (e = d ∧ (_ ∨ _))
      rw [(hL.shared d).1, (hL.shared d).2]
  | own a => exact Iff.rfl

theorem known_iff (hL : Linking C₁ C₂ c) (r : Ref) :
    Known C₂ s r ↔ Known C₁ s r := by
  cases r with
  | creator d => exact hL.declared_iff d
  | own a => exact Iff.rfl

theorem nameOf (hL : Linking C₁ C₂ c) (r : Ref) :
    s.nameOf C₂ r = s.nameOf C₁ r := by
  cases r with
  | creator d => exact hL.names d
  | own a => rfl

theorem placed_iff (hL : Linking C₁ C₂ c) (r : Ref) :
    C₂.Placed r ↔ C₁.Placed r := by
  cases r with
  | creator d =>
      show (_ ∧ _) ↔ (_ ∧ _)
      rw [(hL.shared d).1, (hL.shared d).2]
  | own a => exact Iff.rfl

/-- So the invariant is the same before and after. -/
theorem nameInv (hL : Linking C₁ C₂ c) (hs : NameInv C₁ s₀ s) :
    NameInv C₂ s₀ s := by
  refine ⟨hs.nodup, fun k r h => ?_, fun a e he => ?_, fun f r hf => ?_⟩
  · rw [hL.placed_iff, hL.known_iff, hL.nameOf]
    exact hs.table k r h
  · rw [hL.names, hL.declared_iff, (hL.shared _).1]
    exact hs.entries a e he
  · exact (hL.known_iff r).mpr (hs.scopes f r hf)

theorem fresh (hL : Linking C₁ C₂ c) (h : Fresh C₁ s₀) : Fresh C₂ s₀ := by
  refine ⟨h.keys, h.entries, h.scopes, h.infos, fun k r hk => ?_⟩
  obtain ⟨d, hd, hb, hl⟩ := h.table k r hk
  exact ⟨d, hd, (hL.shared d).1.trans hb, hL.table ▸ hl⟩

/-- What was there of a class is there after linking. -/
theorem consts_mem (hL : Linking C₁ C₂ c) {d : ClassId}
    {x : Bytes × Constant} (hx : x ∈ (C₁.classes d).constants) :
    x ∈ (C₂.classes d).constants := by
  by_cases hd : d = c
  · exact hd ▸ hL.consts x (hd ▸ hx)
  · rw [hL.others d hd]
    exact hx

/-- A linked class has the methods it had, -/
theorem methods_mem (hL : Linking C₁ C₂ c) {d : ClassId}
    {x : Bytes × FuncId} (hx : x ∈ (C₁.classes d).functionTable) :
    x ∈ (C₂.classes d).functionTable := by
  by_cases hd : d = c
  · exact hd ▸ hL.methods x (hd ▸ hx)
  · rw [hL.others d hd]
    exact hx

/-- and the properties. -/
theorem props_mem (hL : Linking C₁ C₂ c) {d : ClassId}
    {x : Bytes × InfoId} (hx : x ∈ (C₁.classes d).propertiesInfo) :
    x ∈ (C₂.classes d).propertiesInfo := by
  by_cases hd : d = c
  · exact hd ▸ (hL.props x (hd ▸ hx)).1
  · rw [hL.others d hd]
    exact hx

section Marked

-- Entries keep their names and origins.
variable (hL : Linking C₁ C₂ c)
  (hident : ∀ (b : Addr) (e : Entry), s.entries[b]? = some e →
    ∃ e', s'.entries[b]? = some e' ∧ e'.ident = e.ident)

include hL hident

/-- What was a copy is one still. -/
theorem copy {d : ClassId} {r : Ref} (h : IsCopy C₁ s d r) :
    IsCopy C₂ s' d r :=
  (hL.isCopy_iff d r).mpr (h.of_ident hident)

theorem valOk {v : Value} {w : CopyVal} (h : ValOk C₁ s v w) :
    ValOk C₂ s' v w := by
  cases h with
  | plain code => exact .plain code
  | enumCase name h => exact .enumCase name (hL.copy hident h)

/-- A scope that was right before linking still is. -/
theorem scopeOk (hscopes : s'.scopes = s.scopes) {d : ClassId}
    {x : Bytes × FuncId} (hx : x ∈ (C₁.classes d).functionTable)
    (h : ScopeOk C₁ s x.2) : ScopeOk C₂ s' x.2 := by
  unfold ScopeOk
  rw [hL.scope d x hx, hscopes]
  exact h.imp_right fun ⟨d, r, hd, hr, hc⟩ =>
    ⟨d, r, hd, hr, hL.copy hident hc⟩

/-- What holds of an entry holds of it marked as linked. -/
theorem entryInv (h₁ : C₁.Engine) {e : Entry}
    (h : EntryInv C₁ (fun _ => False) s e) (hscopes : s'.scopes = s.scopes)
    (hinfos : s'.infos = s.infos) (htables : s'.tables = s.tables) (l : Bool) :
    EntryInv C₂ (· = c) s' { e with linked := l } := by
  refine ⟨?_, ?_, fun p hp => ?_, fun x hx => ?_, fun x hx => ?_,
    fun y hy => ?_, fun n hn => ⟨fun h' => ?_, fun hX => ?_⟩⟩
  · rw [h.isEnum]
    by_cases ho : e.origin = c
    · rw [ho, hL.noEnum.1, hL.noEnum.2]
    · show _ = (C₂.classes e.origin).isEnum
      rw [hL.others _ ho]
  · exact (hL.shared _).2.trans h.mutable
  · obtain ⟨d, hd, hc⟩ := h.parent p hp
    refine ⟨d, ?_, hL.copy hident hc⟩
    by_cases ho : e.origin = c
    · rw [ho, h₁.unlinked c hL.linked.1] at hd
      cases hd
    · show (C₂.classes e.origin).parent = some d
      rw [hL.others _ ho]
      exact hd
  · refine ⟨hL.methods_mem (h.methods x hx).1, ?_⟩
    rw [hscopes]
    exact (h.methods x hx).2
  · refine ⟨hL.props_mem (h.props x hx).1, ?_⟩
    rw [hinfos]
    exact (h.props x hx).2
  · obtain ⟨x, hx, hxy, hce, hv⟩ := h.consts y hy
    exact ⟨x, hL.consts_mem hx, hxy, hL.copy hident hce, hL.valOk hident hv⟩
  · have hne := (h.statics n hn).1
    by_cases ho : e.origin = c
    · rw [ho] at hne
      exact hL.statics hne (ho ▸ h')
    · exact hne (hL.others _ ho ▸ h')
  · have ho : e.origin ≠ c := hX
    obtain ⟨l, hl, hlen⟩ := (h.statics n hn).2 id
    refine ⟨l, htables ▸ hl, ?_⟩
    show l.length = (C₂.classes e.origin).defaultStatics.length
    rw [hL.others _ ho]
    exact hlen

end Marked

end Linking

-- ================================================= a settled thread, linked

/-- The copies of the class. -/
def CopiesOf (c : ClassId) (s : Child) : Addr → Prop :=
  fun b => ∃ e, s.entries[b]? = some e ∧ e.origin = c

/-- The property infos that the class had. -/
def InfosOf (C : Creator) (c : ClassId) : InfoId → Prop :=
  fun i => i ∈ (C.classes c).propertiesInfo.map Prod.snd

/-- A settled thread, some of whose entries have been marked as linked. -/
theorem Linking.inv (hL : Linking C₁ C₂ c) (h₁ : C₁.Engine)
    (hs : Settled C₁ s₀ s) (htable : s'.classTable = s.classTable)
    (hscopes : s'.scopes = s.scopes) (hinfos : s'.infos = s.infos)
    (htables : s'.tables = s.tables)
    (hnew : ∀ (b : Addr) (e' : Entry), s'.entries[b]? = some e' →
      ∃ e, s.entries[b]? = some e ∧ ∃ l, e' = { e with linked := l })
    (hold : ∀ (b : Addr) (e : Entry), s.entries[b]? = some e →
      ∃ l, s'.entries[b]? = some { e with linked := l })
    (hflags : ∀ (k : Bytes) (a : Addr) (e : Entry), s'.find k = some (.own a) →
      s'.entries[a]? = some e → e.linked = (C₂.classes e.origin).linked
        ∧ e.anon = (C₂.classes e.origin).anon) :
    Inv C₂ s₀ (· = c) (CopiesOf c s') (CopiesOf c s') (InfosOf C₁ c) s' := by
  have hident : ∀ (b : Addr) (e : Entry), s.entries[b]? = some e →
      ∃ e', s'.entries[b]? = some e' ∧ e'.ident = e.ident := by
    intro b e he
    obtain ⟨l, hl⟩ := hold b e he
    exact ⟨_, hl, rfl⟩
  have hok : ∀ f, ScopeOk C₁ s f → ScopeOk C₂ s' f := by
    intro f h
    have hf : (s.scopes f).isSome = true := by
      rcases h with ⟨-, h⟩ | ⟨d, r, -, h, -⟩
      · rw [h]
        rfl
      · rw [h]
        rfl
    obtain ⟨b, e, n, -, he, hm⟩ := hs.used f hf
    have hx := ((hs.entries b e he).methods _ hm).1
    exact hL.scopeOk hident hscopes hx h
  have hfind : ∀ k, s'.find k = s.find k := fun k => by
    unfold Child.find
    rw [htable]
  have hnames : NameInv C₂ s₀ s' := by
    refine (grows_of_same (hL.nameInv hs.names) htable (fun b => ?_)
      fun f r h => Or.inl (hscopes ▸ h)).inv
    cases he : s.entries[b]? with
    | some e =>
        obtain ⟨l, hl⟩ := hold b e he
        rw [hl]
        rfl
    | none =>
        cases he' : s'.entries[b]? with
        | none => rfl
        | some e' =>
            obtain ⟨e, hes, -⟩ := hnew b e' he'
            rw [he] at hes
            cases hes
  refine ⟨hnames, hflags, fun b e' he' => ?_, fun f hf => ?_, fun f hf => ?_,
    fun i ic hi => ?_, fun i hi => ?_, fun b e' he' hI => ?_,
    fun b e' he' hI => ?_, fun b e' he' hb hI => absurd hb hI,
    fun b hb => hb.imp fun e h => h.1⟩
  · obtain ⟨e, he, l, rfl⟩ := hnew b e' he'
    exact hL.entryInv hident h₁ (hs.entries b e he) hscopes hinfos htables l
  · rw [hscopes] at hf
    obtain ⟨b, e, n, hI, he, hm⟩ := hs.used f hf
    obtain ⟨l, hl⟩ := hold b e he
    exact ⟨b, _, n, hI, hl, hm⟩
  · rw [hscopes] at hf
    rcases hs.scopes f hf with h | ⟨⟨b, e, n, hI, -⟩, -⟩
    · exact Or.inl (hok f h)
    · exact hI.elim
  · rw [hinfos] at hi
    rcases hs.infos i ic hi with hJ | ⟨hoff, hce⟩
    · exact hJ.elim
    · obtain ⟨d, hd⟩ := hs.listed i (by rw [hi]; rfl)
      obtain ⟨x, hx, rfl⟩ := List.mem_map.mp hd
      by_cases hdc : d = c
      · exact Or.inl (hdc ▸ hd)
      · obtain ⟨hcex, hoffx⟩ := hL.infos d x hx
        refine Or.inr ⟨hoff.trans (hoffx hdc).symm, ?_⟩
        rw [hcex]
        exact hL.copy hident hce
  · rw [hinfos] at hi
    obtain ⟨d, hd⟩ := hs.listed i hi
    obtain ⟨x, hx, rfl⟩ := List.mem_map.mp hd
    exact ⟨d, List.mem_map_of_mem (hL.props_mem hx)⟩
  · obtain ⟨e, he, l, rfl⟩ := hnew b e' he'
    have ho : e.origin ≠ c := fun ho => hI ⟨_, he', ho⟩
    have h := hs.base b e he id
    have hcls : C₂.classes e.origin = C₁.classes e.origin := hL.others _ ho
    refine ⟨?_, fun hl => ?_, fun hl => ?_, fun x hx => ?_,
      fun x hx => hok x.2 (h.scopes x hx)⟩
    · rw [hfind]
      exact h.present
    · rw [hcls] at hl ⊢
      exact h.parent hl
    · rw [hcls] at hl ⊢
      exact (h.interfaces hl).imp fun _ _ hc => hL.copy hident hc
    · rw [hcls] at hx
      exact h.methods x hx
  · obtain ⟨e, he, l, rfl⟩ := hnew b e' he'
    have ho : e.origin ≠ c := fun ho => hI ⟨_, he', ho⟩
    have h := hs.late b e he id
    have hcls : C₂.classes e.origin = C₁.classes e.origin := hL.others _ ho
    refine ⟨fun x hx => ?_, fun x hx => ?_, fun hne => ?_⟩
    · rw [hcls] at hx
      exact h.props x hx
    · rw [hcls] at hx
      exact h.consts x hx
    · rw [hcls] at hne
      exact h.statics hne

/-- The thread has no copy of the class. -/
theorem Linking.settled (hL : Linking C₁ C₂ c) (h₁ : C₁.Engine)
    (hs : Settled C₁ s₀ s)
    (hnone : s.find (lower (C₁.classes c).name) = none) :
    Settled C₂ s₀ s := by
  have hno : ∀ (b : Addr) (e : Entry), s.entries[b]? = some e →
      e.origin ≠ c := by
    intro b e he ho
    have hp := (hs.base b e he id).present
    rw [(hs.names.entries b e he).1, ho, hnone] at hp
    cases hp
  have hnoCopy : ∀ r, ¬ IsCopy C₁ s c r := by
    intro r hr
    cases r with
    | creator d =>
        rcases hr.2 with h | h
        · rw [hL.user.1] at h
          cases h
        · rw [hL.mutable.1] at h
          cases h
    | own a =>
        obtain ⟨e, he, ho⟩ := hr
        exact hno a e he ho
  have hinv := hL.inv h₁ hs rfl rfl rfl rfl
    (fun b e he => ⟨e, he, e.linked, rfl⟩) (fun b e he => ⟨e.linked, he⟩)
    fun k a e hk he => by
      rw [hL.others _ (hno a e he)]
      exact hs.flags k a e hk he
  have hI : ∀ b, ¬ CopiesOf c s b := by
    rintro b ⟨e, he, ho⟩
    exact hno b e he ho
  refine ⟨hinv.names, hinv.flags, fun b e he => ?_, hinv.used,
    fun f hf => ?_, fun i ic hi => ?_, hinv.listed,
    fun b e he _ => hinv.base b e he (hI b),
    fun b e he _ => hinv.late b e he (hI b), fun _ _ _ h => h.elim,
    fun _ h => h.elim⟩
  · have h := hinv.entries b e he
    exact ⟨h.isEnum, h.mutable, h.parent, h.methods, h.props, h.consts,
      fun t ht => ⟨(h.statics t ht).1, fun _ =>
        (h.statics t ht).2 (hno b e he)⟩⟩
  · rcases hinv.scopes f hf with h | ⟨⟨b, e, n, hb, -⟩, -⟩
    · exact Or.inl h
    · exact absurd hb (hI b)
  · rcases hinv.infos i ic hi with hJ | h
    · obtain ⟨x, hx, rfl⟩ := List.mem_map.mp hJ
      rcases hs.infos x.2 ic hi with h | ⟨-, hce⟩
      · exact h.elim
      · rw [(hL.props x hx).2] at hce
        exact absurd hce (hnoCopy _)
    · exact Or.inr h

end Linked

end PmmpThread.Model.Classes
