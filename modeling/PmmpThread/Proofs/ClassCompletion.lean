/-
An anonymous class that is copied unlinked and completed later, against one
that is copied linked.

# In one go

A thread that does not have the class makes a new entry, and that is whole
and has the scopes right (`create_whole`).

# Later

A thread that has the entry from before finds it and completes it
(`create_unbound`). Parents and interfaces are there before the methods
are added, so a method that is inherited has the right scope by then. A
method of a trait is new: it is copied with the creator's scope, and as
no other class has it, nothing changes that up to the end
(`Go.scope_same`). Property infos are not copied twice.

So the two entries are the same, if and only if linking has added no method
of a trait and moved no property (`complete_same_iff`).
-/
import PmmpThread.Proofs.ClassSame
import PmmpThread.Proofs.ClassLinking

namespace PmmpThread.Model.Classes

open Constants (lower)
open Zend

-- ======================================================= copied in one go

section Copied

variable {C : Creator} {c : ClassId} {s₀ s u : Child} {X : ClassId → Prop}
  {I L : Addr → Prop} {J : InfoId → Prop} {a : Addr} {fuel : Nat}
  {e e' : Entry}

theorem LateOf.whole (hl : LateOf C s₀ X I L J fuel a e u e')
    (ho : e.origin = c) (hentry : EntryInv C X u e')
    (hX : ∀ d, X d → d = c)
    (hothers : ∀ b, I b ∨ L b → ∀ e, u.entries[b]? = some e → e.origin = c)
    (hsome : e'.parent.isSome = (C.classes c).parent.isSome)
    (hinterfaces : List.Forall₂ (IsCopy C u) (C.classes c).interfaces
      e'.interfaces)
    (hmethods : ∀ x ∈ (C.classes c).functionTable, x ∈ e'.functionTable) :
    Whole C c s₀ X I L J fuel a u e' := by
  obtain ⟨ho', -, hpar, -⟩ := Entry.core_eq hl.core
  rw [ho] at ho'
  have hlate := hl.statics
  rw [ho] at hlate
  have hdefaults := hl.defaults
  rw [ho] at hdefaults
  refine ⟨hentry, ho', fun b hb => hothers b (Or.inr hb),
    rel_of_isSome hsome fun p hp => ho' ▸ hentry.parent p hp, hinterfaces,
    hmethods, hl.late, hdefaults, fun hnil => ?_, fun hne => ?_⟩
  · cases ht : e'.defaultStatics with
    | none => rfl
    | some t => exact absurd (ho' ▸ hnil) (hentry.statics t ht).1
  · obtain ⟨n, slots, own, v, hn, ht, hv, hext, hparent, hslots, hown⟩ :=
      hlate hne
    rw [← hpar] at hparent hslots hown
    have hback : ∀ (b : Addr) (e₁ : Entry), v.entries[b]? = some e₁ →
        ∃ e₂, u.entries[b]? = some e₂ ∧ e₂.origin = e₁.origin := by
      intro b e₁ he₁
      obtain ⟨e₂, he₂, hi, -⟩ := hext.ident b e₁ he₁
      exact ⟨e₂, he₂, (Prod.mk.inj hi).1⟩
    refine ⟨n, slots, own, v, hn, ht, ⟨hv, hext, ?_, ?_, hX⟩,
      rel_of_isSome hsome hparent, hslots, hown⟩
    · intro b hb e₁ he₁
      obtain ⟨e₂, he₂, h₂⟩ := hback b e₁ he₁
      exact h₂ ▸ hothers b hb e₂ he₂
    · intro e₁ he₁
      obtain ⟨e₂, he₂, h₂⟩ := hback a e₁ he₁
      rw [hl.entry] at he₂
      rw [← h₂, ← Option.some.inj he₂]
      exact ho'

/-- A linked class that the thread does not have. -/
theorem create_whole (hC : C.Engine) (h₀ : Fresh C s₀)
    (hs : Settled C s₀ s) (hc : C.Declared c)
    (hb : C.builtin (.creator c) = false)
    (hmut : (C.classes c).immutable = false)
    (hlinked : (C.classes c).linked = true)
    (hnone : s.find (lower (C.classes c).name) = none) {r : Ref}
    (h : C.create fuel (.creator c) true s = some (r, u)) :
    Settled C s₀ u ∧ ∃ a e m, r = .own a ∧ u.entries[a]? = some e
      ∧ Base C u e
      ∧ Whole C c s₀ (fun _ => False) (Plus (fun _ => False) a)
        (Plus (fun _ => False) a) (fun _ => False) m a u e := by
  cases fuel with
  | zero => cases h
  | succ fuel =>
      unfold Creator.create at h
      change (if C.builtin (.creator c) then _ else _) = _ at h
      rw [hb, if_neg Bool.false_ne_true] at h
      rw [show s.nameOf C (.creator c) = (C.classes c).name from rfl,
        hnone] at h
      have hX : ∀ d x, (C.classes d).parent = some x → ¬ False :=
        fun _ _ _ h => h
      have hnew := createNew_copy hC h₀ hX (create_recInv hC h₀ hX fuel) hc
        hb hmut hnone hs h
      obtain ⟨e₁, e, hlate, ho⟩ := hnew.late rfl
      have hinv : Settled C s₀ u := hnew.inv
      have he := hlate.entry
      have hbase := hinv.base _ e he id
      obtain ⟨ho', -⟩ := Entry.core_eq hlate.core
      rw [ho] at ho'
      have hpar := hbase.parent
      have hint := hbase.interfaces
      have hmeth := hbase.methods
      rw [ho'] at hpar hint hmeth
      refine ⟨hinv, _, e, fuel, hnew.ref, he, hbase, hlate.whole ho
        (hinv.entries _ e he) (fun _ h => h.elim) ?_ (hpar hlinked)
        (hint hlinked) hmeth⟩
      intro b hb e₂ he₂
      have hba : b = s.entries.length := by
        rcases hb with (h | h) | (h | h)
        · exact h.elim
        · exact h
        · exact h.elim
        · exact h
      rw [hba, he] at he₂
      rw [← Option.some.inj he₂]
      exact ho'

end Copied

-- ======================================================== completed later

section Scopes

variable {C : Creator} {c : ClassId} {s₀ s s' : Child} {X : ClassId → Prop}
  {I L : Addr → Prop} {J : InfoId → Prop} {a : Addr} {f : FuncId}

/-- The methods that are added are copied, if they were not, with the
creator's scopes. -/
theorem prepareFunctions_scopes (xs : List (Bytes × FuncId)) (s : Child)
    (g : FuncId) :
    (xs.foldl (C.prepareFunction a) s).scopes g = s.scopes g
      ∨ s.scopes g = none ∧ (xs.foldl (C.prepareFunction a) s).scopes g
        = some ((C.scope g).map .creator) := by
  induction xs generalizing s with
  | nil => exact Or.inl rfl
  | cons x xs ih =>
      have hstep : (C.prepareFunction a s x).scopes g = s.scopes g
          ∨ s.scopes g = none ∧ (C.prepareFunction a s x).scopes g
            = some ((C.scope g).map .creator) := by
        unfold Creator.prepareFunction
        split
        · exact Or.inl rfl
        · have heq := copyFunction_scopes (C := C) s x.2 g
          by_cases hg : g = x.2 ∧ s.scopes x.2 = none
          · obtain ⟨rfl, hn⟩ := hg
            rw [if_pos ⟨rfl, hn⟩] at heq
            exact Or.inr ⟨hn, heq⟩
          · rw [if_neg hg] at heq
            exact Or.inl heq
      rw [List.foldl_cons]
      rcases hstep with heq | ⟨hn, heq⟩
      · rcases ih (C.prepareFunction a s x) with h | ⟨hn, h⟩
        · exact Or.inl (h.trans heq)
        · exact Or.inr ⟨heq ▸ hn, h⟩
      · rcases ih (C.prepareFunction a s x) with h | ⟨hn', -⟩
        · exact Or.inr ⟨hn, h.trans heq⟩
        · rw [heq] at hn'
          cases hn'

/-- A method that only the class has stays as it is while its entry gets no
methods. -/
theorem Go.scope_same (hg : Go C s₀ X I L J (· = a) s s')
    (hown : ∀ e e', s.entries[a]? = some e → s'.entries[a]? = some e' →
      e'.functionTable = e.functionTable)
    (hkey : (s.find (lower (C.classes c).name)).isSome = true)
    (honly : ∀ d n, (n, f) ∈ (C.classes d).functionTable → d = c) :
    s'.scopes f = s.scopes f := by
  rcases hg.quiet.scopes f with h | ⟨b, e', n, he', hm, hnot⟩ | h
  · exact h
  · have ho := honly _ n ((hg.inv.entries b e' he').methods _ hm).1
    cases hb : s.entries[b]? with
    | none =>
        have hnone := hg.quiet.news b e' he' hb
        rw [(hg.inv.names.entries b e' he').1, ho] at hnone
        rw [hnone] at hkey
        cases hkey
    | some e =>
        refine absurd ?_ (hnot e hb)
        by_cases hba : b = a
        · rw [← hown e e' (hba ▸ hb) (hba ▸ he')]
          exact hm
        · have he := hg.ext.entries b e hb hba
          rw [he'] at he
          exact Option.some.inj he ▸ hm
  · exact h.elim

/-- A method of a class that all threads share has its scope copied by being
what it is. -/
theorem scopeOk_of_shared (hC : C.Engine) (hs : Inv C s₀ X I L J s)
    {d : ClassId} {n : Bytes} (hm : (n, f) ∈ (C.classes d).functionTable)
    (hd : C.builtin (.creator d) = true ∨ (C.classes d).immutable = true)
    (hf : (s.scopes f).isSome = true) : ScopeOk C s f := by
  rcases hs.scopes f hf with h | ⟨-, h⟩
  · exact h
  · cases hscope : C.scope f with
    | none =>
        rw [hscope] at h
        exact Or.inl ⟨hscope, h⟩
    | some d' =>
        rw [hscope] at h
        exact Or.inr ⟨d', .creator d', hscope, h, rfl,
          hC.sharedScopes d _ hm d' hscope hd⟩

/-- A method of a class that the thread has a copy of is right. -/
theorem scopeOk_of_copy (hs : Inv C s₀ X I L J s)
    {d : ClassId} {n : Bytes} {r : Ref}
    (hm : (n, f) ∈ (C.classes d).functionTable) (hr : IsCopy C s d r)
    (hI : ∀ b, r = .own b → ¬ I b) :
    ScopeOk C s f ∨ C.builtin (.creator d) = true
      ∨ (C.classes d).immutable = true := by
  cases r with
  | creator d' =>
      obtain ⟨rfl, hd⟩ := hr
      exact Or.inr hd
  | own b =>
      obtain ⟨e, he, rfl⟩ := hr
      have hbase := hs.base b e he (hI b rfl)
      exact Or.inl (hbase.scopes _ (hbase.methods _ hm))

end Scopes

section Complete

variable {C₁ C₂ : Creator} {c : ClassId} {s₀ s s' u u' : Child} {a : Addr}
  {fuel : Nat}

/-- The entry with its flag, which `pmmpthread_complete_entry` sets first. -/
def marked (u : Child) (a : Addr) : Child :=
  u.setEntry a fun e => { e with linked := true }

theorem marked_entries (u : Child) (a b : Addr) :
    (marked u a).entries[b]? = if a = b then
      u.entries[b]?.map fun e => { e with linked := true }
      else u.entries[b]? := Child.getElem?_setEntry u a b _

theorem marked_marked (u : Child) (a : Addr) :
    marked (marked u a) a = marked u a := by
  unfold marked Child.setEntry
  simp only []
  rw [List.modify_modify_eq]
  rfl

theorem marked_ident (u : Child) (a b : Addr) (e : Entry)
    (he : u.entries[b]? = some e) :
    ∃ e', (marked u a).entries[b]? = some e' ∧ e'.ident = e.ident := by
  rw [marked_entries]
  split
  · rw [he]
    exact ⟨_, rfl, rfl⟩
  · exact ⟨e, he, rfl⟩

/-- The thread, with a copy of the class from before it was linked, when the
copy is completed. -/
theorem marked_inv (hL : Linking C₁ C₂ c) (h₁ : C₁.Engine)
    (h₀ : Fresh C₁ s₀) (hs : Settled C₁ s₀ u)
    (hfind : u.find (lower (C₁.classes c).name) = some (.own a)) :
    Inv C₂ s₀ (· = c) (CopiesOf c (marked u a)) (CopiesOf c (marked u a))
      (InfosOf C₁ c) (marked u a) := by
  obtain ⟨e, he, ho⟩ :=
    hs.names.find_isCopy h₁ h₀ hL.declared hfind
  refine hL.inv h₁ hs rfl rfl rfl rfl (fun b e' he' => ?_) (fun b e' he' => ?_)
    fun k b e' hk he' => ?_
  · rw [marked_entries] at he'
    split at he'
    · obtain ⟨e₁, he₁, rfl⟩ := Option.map_eq_some_iff.mp he'
      exact ⟨e₁, he₁, true, rfl⟩
    · exact ⟨e', he', e'.linked, rfl⟩
  · rw [marked_entries]
    split
    · rw [he']
      exact ⟨true, rfl⟩
    · exact ⟨e'.linked, he'⟩
  · rw [marked_entries] at he'
    change u.find k = some (.own b) at hk
    split at he'
    case isTrue hab =>
      subst hab
      rw [he] at he'
      have he' := Option.some.inj he'
      rw [← he']
      show true = (C₂.classes e.origin).linked
        ∧ e.anon = (C₂.classes e.origin).anon
      have hanon := (hs.flags k a e hk he).2
      rw [ho] at hanon ⊢
      exact ⟨hL.linked.2.symm, hanon.trans (hL.anon.1.trans hL.anon.2.symm)⟩
    case isFalse hab =>
      have hne : e'.origin ≠ c := by
        intro hoc
        have hkey : k = lower (C₁.classes c).name := by
          rcases hs.names.table k _ hk with h | ⟨-, -, h⟩
          · obtain ⟨d, hd, -⟩ := h₀.table k _ h
            cases hd
          · rw [h]
            show lower ((u.entries[b]?.map Entry.name).getD []) = _
            rw [he', ← hoc]
            exact congrArg lower (hs.names.entries b e' he').1
        rw [hkey, hfind] at hk
        exact hab (Ref.own.inj (Option.some.inj hk))
      rw [hL.others _ hne]
      exact hs.flags k b e' hk he'

/-- What `pmmpthread_create_entry` does with it. -/
theorem create_unbound (hL : Linking C₁ C₂ c) (h₁ : C₁.Engine)
    (h₀ : Fresh C₁ s₀) (hs : Settled C₁ s₀ u)
    (hfind : u.find (lower (C₁.classes c).name) = some (.own a)) {r : Ref}
    (h : C₂.create fuel (.creator c) true u = some (r, u')) :
    r = .own a ∧ ∃ m v,
      C₂.completeEntry (fun r s => C₂.create m r true s) c a (marked u a)
        = some v
      ∧ C₂.lateBindings m (fun r s => C₂.create m r true s) c a v
        = some u' := by
  obtain ⟨e, he, ho⟩ := hs.names.find_isCopy h₁ h₀ hL.declared hfind
  cases fuel with
  | zero => cases h
  | succ m =>
      obtain ⟨hl, han⟩ := hs.flags _ a e hfind he
      rw [ho] at hl han
      have hun : C₂.isUnbound u (.own a) = true := by
        show u.entries[a]?.any _ = true
        rw [he, Option.any_some, hl, han, hL.linked.1, hL.anon.1]
        rfl
      have hbound : C₂.isBound u (.creator c) = true := by
        show ((C₂.classes c).anon && (C₂.classes c).linked) = true
        rw [hL.anon.2, hL.linked.2]
        rfl
      rw [← hL.name] at hfind
      unfold Creator.create at h
      change (if C₂.builtin (.creator c) then _ else _) = _ at h
      rw [hL.user.2, if_neg Bool.false_ne_true] at h
      rw [show u.nameOf C₂ (.creator c) = (C₂.classes c).name from rfl,
        hfind] at h
      simp only [hun, hbound, Bool.and_self, if_true] at h
      obtain ⟨v, hv, h⟩ := Option.bind_eq_some_iff.mp h
      obtain ⟨w, hw, h⟩ := Option.map_eq_some_iff.mp h
      obtain ⟨rfl, rfl⟩ := Prod.mk.inj h
      refine ⟨rfl, m, v, ?_, hw⟩
      rw [← hv]
      unfold Creator.completeEntry
      simp only [hL.linked.2]
      exact congrArg (Option.bind · _) (congrArg
        (Creator.prepareParent _ (C₂.classes c) a) (marked_marked u a))

/-- The entry of a class that is completed after it was linked. -/
structure Completed (C₁ C₂ : Creator) (c : ClassId) (s₀ : Child)
    (I : Addr → Prop) (fuel : Nat) (a : Addr) (u u' : Child) (e : Entry) :
    Prop where
  inv : Inv C₂ s₀ (· = c) I I (InfosOf C₁ c) u'
  entry : u'.entries[a]? = some e
  whole : Whole C₂ c s₀ (· = c) I I (InfosOf C₁ c) fuel a u' e
  scopes : ∀ x ∈ (C₂.classes c).functionTable,
    x ∈ (C₁.classes c).functionTable ∨ C₂.scope x.2 ≠ some c →
      ScopeOk C₂ u' x.2
  added : ∀ x ∈ (C₂.classes c).functionTable,
    x ∉ (C₁.classes c).functionTable → C₂.scope x.2 = some c →
      u'.scopes x.2 = some (some (.creator c))
  infos : ∀ (i : InfoId) (ic : InfoCopy), u.infos i = some ic →
    u'.infos i = some ic
  copies : ∀ (d : ClassId) (r : Ref), IsCopy C₁ u d r → IsCopy C₂ u' d r

/-- A method that linking has added and that is not of the class itself is
inherited; its scope is right as soon as the parents are there. -/
theorem Linking.scopes_added (hL : Linking C₁ C₂ c) (h₂ : C₂.Engine)
    {X : ClassId → Prop} {I L : Addr → Prop} {J : InfoId → Prop}
    {v : Child} {p : Option Ref} {is : List Ref}
    (hv : Inv C₂ s₀ X I L J v)
    (hgo : Go C₂ s₀ X I L J (· = a) v s')
    (hI : ∀ b, I b → ∀ e, v.entries[b]? = some e → e.origin = c)
    (hpar : Option.Rel (IsCopy C₂ v) (C₂.classes c).parent p)
    (hint : List.Forall₂ (IsCopy C₂ v) (C₂.classes c).interfaces is)
    {x : Bytes × FuncId} (hx : x ∈ (C₂.classes c).functionTable)
    (hnew : x ∉ (C₁.classes c).functionTable)
    (hscope : C₂.scope x.2 ≠ some c)
    (hsome : (s'.scopes x.2).isSome = true) : ScopeOk C₂ s' x.2 := by
  rcases hL.added x hx hnew with ⟨-, d, hd, n, hm⟩ | ⟨h, -⟩
  · have hcopy : ∃ r, IsCopy C₂ v d r ∧ d ≠ c := by
      rcases hd with hd | hd
      · rw [hd] at hpar
        obtain ⟨r, -, hr⟩ := rel_some hpar
        exact ⟨r, hr, fun heq => hL.alone c (heq ▸ hd)⟩
      · obtain ⟨r, hr⟩ := forall₂_mem hint hd
        exact ⟨r, hr, fun heq => hL.interfaces (heq ▸ hd)⟩
    obtain ⟨r, hr, hdc⟩ := hcopy
    have hcases := scopeOk_of_copy hv hm hr fun b hb hIb => by
      rw [hb] at hr
      obtain ⟨e, he, ho⟩ := hr
      exact hdc (ho.symm.trans (hI b hIb e he))
    rcases hcases with hok | hshared
    · exact hgo.ext.scopes _ hok
    · exact scopeOk_of_shared h₂ hgo.inv hm hshared hsome
  · exact absurd h hscope

/-- A method of the class that linking has added is copied for the first
time, and no other class has it. -/
theorem Linking.unused (hL : Linking C₁ C₂ c) (hs : Settled C₁ s₀ u)
    {x : Bytes × FuncId} (hx : x ∈ (C₂.classes c).functionTable)
    (hnew : x ∉ (C₁.classes c).functionTable)
    (hscope : C₂.scope x.2 = some c) :
    u.scopes x.2 = none
      ∧ ∀ d n, (n, x.2) ∈ (C₂.classes d).functionTable → d = c := by
  rcases hL.added x hx hnew with ⟨hne, -⟩ | ⟨-, hfresh⟩
  · exact absurd hscope hne
  · refine ⟨?_, fun d n hm => ?_⟩
    · cases hux : u.scopes x.2 with
      | none => rfl
      | some o =>
          obtain ⟨b, e, n, -, he, hm⟩ := hs.used x.2 (by rw [hux]; rfl)
          exact absurd ((hs.entries b e he).methods _ hm).1 (hfresh _ n)
    · by_contra hd
      rw [hL.others d hd] at hm
      exact hfresh d n hm

/-- What were copies of the class still are. -/
theorem CopiesOf.ext {X : ClassId → Prop} {I L : Addr → Prop}
    {J : InfoId → Prop} (hgo : Go C₂ s₀ X I L J (· = a) s s') {b : Addr}
    (hb : CopiesOf c s b) {e : Entry} (he : s'.entries[b]? = some e) :
    e.origin = c := by
  obtain ⟨e₁, he₁, ho₁⟩ := hb
  obtain ⟨e₂, he₂, hi, -⟩ := hgo.ext.ident b e₁ he₁
  rw [he] at he₂
  rw [Option.some.inj he₂]
  exact (Prod.mk.inj hi).1.trans ho₁

/-- Completing does to the entry what is to be done, but leaves the scopes
of the methods that it adds. -/
theorem completed (hL : Linking C₁ C₂ c) (h₁ : C₁.Engine) (h₂ : C₂.Engine)
    (h₀ : Fresh C₁ s₀) (hs : Settled C₁ s₀ u)
    (hfind : u.find (lower (C₁.classes c).name) = some (.own a)) {r : Ref}
    (h : C₂.create fuel (.creator c) true u = some (r, u')) :
    r = .own a ∧ ∃ m e,
      Completed C₁ C₂ c s₀ (CopiesOf c (marked u a)) m a u u' e := by
  obtain ⟨hr, m, v, hv, hlate⟩ := create_unbound hL h₁ h₀ hs hfind h
  obtain ⟨e, he, ho⟩ := hs.names.find_isCopy h₁ h₀ hL.declared hfind
  have hw := marked_inv hL h₁ h₀ hs hfind
  have hew : (marked u a).entries[a]? = some { e with linked := true } := by
    rw [marked_entries, if_pos rfl, he]
    rfl
  have hI : CopiesOf c (marked u a) a := ⟨_, hew, ho⟩
  have hX : ∀ d x, (C₂.classes d).parent = some x → ¬ x = c :=
    fun d x hd hx => hL.alone d (hx ▸ hd)
  have hc := (hL.declared_iff c).mpr hL.declared
  have hrec := create_recInv h₂ (hL.fresh h₀) hX m
  obtain ⟨w, p, is, hgo₁, hew₁, hpar, rfl⟩ := completeEntry_parents h₂
    (hL.fresh h₀) hrec hc hI hI hw hew ho hL.linked.2.symm hv
  obtain ⟨hgo₂, l, hev, hls⟩ := prepareFunctions_go h₂ hc hI hI
    (C₂.classes c).functionTable (fun _ hx => hx) hgo₁.inv hew₁ ho
  obtain ⟨hgo₃, e', hl⟩ := lateBindings_go h₂ (hL.fresh h₀) hX hrec hc hI
    hgo₂.inv hev ho hL.linked.2.symm hlate
  -- `w` has the parents, then come the methods, then the late bindings
  have hgo := hgo₂.trans hgo₃
  have hall := hgo₁.trans hgo
  obtain ⟨-, -, hpar', hint', hmeth'⟩ := Entry.core_eq hl.core
  have hsome := (hpar hL.linked.2).1
  have hints := (hpar hL.linked.2).2
  have hcopied : ∀ x ∈ (C₂.classes c).functionTable,
      (u'.scopes x.2).isSome = true := fun x hx =>
    ((hgo₃.inv.entries a e' hl.entry).methods x (hmeth' ▸ hls x hx)).2
  refine ⟨hr, m, e', hgo₃.inv, hl.entry, ?_, fun x hx hcase => ?_,
    fun x hx hnew hscope => ?_, fun i ic hi => hall.infos i ic hi,
    fun d r hr => ?_⟩
  · refine hl.whole ho (hgo₃.inv.entries a e' hl.entry) (fun _ h => h)
      (fun b hb _ => CopiesOf.ext hall (hb.elim id id)) ?_ ?_ ?_
    · rw [hpar']
      exact hsome
    · rw [hint']
      exact hints.imp fun _ _ hr => hr.mono hgo.ext
    · rw [hmeth']
      exact hls
  · by_cases hold : x ∈ (C₁.classes c).functionTable
    · have hbase := hs.base a e he id
      rw [← ho] at hold
      have hok := hbase.scopes x (hbase.methods x hold)
      exact hall.ext.scopes _
        (hL.scopeOk (marked_ident u a) rfl hold hok)
    · refine hL.scopes_added h₂ hgo₁.inv hgo
        (fun b hb _ => CopiesOf.ext hgo₁ hb)
        (rel_of_isSome hsome fun q hq => ?_) hints hx hold
        (hcase.resolve_left hold) (hcopied x hx)
      have hpq := (hgo₁.inv.entries a _ hew₁).parent q hq
      change ∃ d, (C₂.classes e.origin).parent = some d ∧ _ at hpq
      rw [ho] at hpq
      exact hpq
  · -- not copied with the parents, nor given a scope with the late bindings
    obtain ⟨hunused, honly⟩ := hL.unused hs hx hnew hscope
    have hkey : ((marked u a).find (lower (C₂.classes c).name)).isSome
        = true := by
      rw [hL.name]
      show (u.find _).isSome = true
      rw [hfind]
      rfl
    have hw₁ := hgo₁.scope_same (f := x.2) (fun e₁ e₂ h₁ h₂ => by
      rw [hew] at h₁
      rw [hew₁] at h₂
      rw [← Option.some.inj h₁, ← Option.some.inj h₂]) hkey honly
    have hv₁ := hgo₃.scope_same (f := x.2) (fun e₁ e₂ h₁ h₂ => by
      rw [hev] at h₁
      rw [hl.entry] at h₂
      rw [← Option.some.inj h₁, ← Option.some.inj h₂]
      exact hmeth') ((hgo₁.trans hgo₂).ext.keys hkey) honly
    change (marked u a).scopes x.2 = none at hunused
    rw [hunused] at hw₁
    rcases prepareFunctions_scopes (C := C₂) (a := a)
      (C₂.classes c).functionTable w x.2 with h | ⟨-, h⟩
    · have hc' := hcopied x hx
      rw [hv₁, h, hw₁] at hc'
      cases hc'
    · rw [hv₁, h, hscope]
      rfl
  · have hcopy := (hL.isCopy_iff d r).mpr (hr.of_ident (marked_ident u a))
    exact hcopy.mono hall.ext

end Complete

-- ================================================================ the claim

/-- What a thread comes to: it starts, and it asks for classes. -/
inductive Reached (C : Creator) (s₀ : Child) : Child → Prop
  | fresh (h : Fresh C s₀) : Reached C s₀ s₀
  | start {fuel : Nat} {s : Child} (h : Fresh C s₀)
      (hs : C.prepareClasses fuel s₀ = some s) : Reached C s₀ s
  | create {fuel : Nat} {r : Ref} {s : Child} {q : Ref × Child}
      (h : Reached C s₀ s) (hr : Known C s r)
      (hq : C.create fuel r true s = some q) : Reached C s₀ q.2

theorem Reached.settled {C : Creator} {s₀ s : Child} (hC : C.Engine)
    (h : Reached C s₀ s) : Fresh C s₀ ∧ Settled C s₀ s := by
  induction h with
  | fresh h => exact ⟨h, h.start⟩
  | start h hs => exact ⟨h, prepareClasses_settled hC h hs⟩
  | @create fuel _ _ _ _ hr hq ih =>
      have hrec := create_recInv (X := fun _ => False) hC ih.1
        (fun _ _ _ h => h) fuel
      exact ⟨ih.1, (hrec _ _ _ _ _ _ ih.2 hr hq).1.inv⟩

/-- The case objects among the values of the class are of enums. -/
def Creator.CasesOfEnums (C : Creator) (c : ClassId) : Prop :=
  ∀ w ∈ (C.classes c).defaultProperties ++ (C.classes c).defaultStatics,
    ∀ d, w.cls? = some d → (C.classes d).isEnum = true

/-- Linking has added no method of the class itself, that is none of a
trait, and has left the offsets of its properties as they were. -/
structure Unmoved (C₁ C₂ : Creator) (c : ClassId) : Prop where
  methods : ∀ x ∈ (C₂.classes c).functionTable,
    x ∉ (C₁.classes c).functionTable → C₂.scope x.2 ≠ some c
  offsets : ∀ x ∈ (C₁.classes c).propertiesInfo,
    (C₂.info x.2).offset = (C₁.info x.2).offset

/-- The infos of the copy from before. -/
theorem Linking.infos_before {C₁ C₂ : Creator} {c : ClassId} {s₀ u : Child}
    {a : Addr} (hL : Linking C₁ C₂ c) (h₁ : C₁.Engine) (h₀ : Fresh C₁ s₀)
    (hs : Settled C₁ s₀ u)
    (hfind : u.find (lower (C₁.classes c).name) = some (.own a)) :
    ∀ x ∈ (C₁.classes c).propertiesInfo, ∃ ic, u.infos x.2 = some ic
      ∧ ic.offset = (C₁.info x.2).offset
      ∧ IsCopy C₁ u (C₁.info x.2).ce ic.ce := by
  intro x hx
  obtain ⟨e, he, rfl⟩ := hs.names.find_isCopy h₁ h₀ hL.declared hfind
  have hmem := (hs.late a e he id).props x hx
  obtain ⟨ic, hic⟩ := Option.isSome_iff_exists.mp
    ((hs.entries a e he).props x hmem).2
  exact ⟨ic, hic, (hs.infos _ _ hic).resolve_left id⟩

section Claim

variable {C₁ C₂ : Creator} {c : ClassId} {s₀ t₀ u u' t' : Child} {a a' : Addr}
  {I I' L' : Addr → Prop} {k k' : Nat} {e e' : Entry}
  (hL : Linking C₁ C₂ c)
  (hold : ∀ x ∈ (C₁.classes c).propertiesInfo, ∃ ic, u.infos x.2 = some ic
    ∧ ic.offset = (C₁.info x.2).offset ∧ IsCopy C₁ u (C₁.info x.2).ce ic.ce)
  (hdone : Completed C₁ C₂ c s₀ I k a u u' e)
  (hinv' : Settled C₂ t₀ t')

include hL hold hdone hinv'

/-- A method of a trait and a property that was moved make a difference. -/
theorem Completed.unmoved (hsame : SameEntry C₂ u' t' e e') :
    Unmoved C₁ C₂ c := by
  refine ⟨fun x hx hnew hscope => ?_, fun x hx => ?_⟩
  · have hrel := hsame.scopes x (hdone.whole.methods x hx)
    rw [hdone.added x hx hnew hscope] at hrel
    obtain ⟨o, -, hrel⟩ := rel_some hrel
    obtain ⟨p, -, d, hd, -⟩ := rel_some hrel
    rcases hd.2 with h | h
    · rw [← hd.1, hL.user.2] at h
      cases h
    · rw [← hd.1, hL.mutable.2] at h
      cases h
  · obtain ⟨ic, hic, hoff, -⟩ := hold x hx
    have hrel := hsame.infos x
      (hdone.whole.late.props x (hdone.whole.origin ▸ (hL.props x hx).1))
    rw [hdone.infos _ _ hic] at hrel
    obtain ⟨ic', hic', heq, -⟩ := rel_some hrel
    rcases hinv'.infos _ _ hic' with h | ⟨hoff', -⟩
    · exact h.elim
    · rw [← hoff', ← heq, hoff]

/-- Nothing else does. -/
theorem Completed.same (h₂ : C₂.Engine)
    (hvalues : ∀ w ∈ (C₂.classes c).defaultProperties
      ++ (C₂.classes c).defaultStatics, ∀ d, w.cls? = some d → d ≠ c)
    (hbase' : Base C₂ t' e')
    (hwhole' : Whole C₂ c t₀ (fun _ => False) I' L' (fun _ => False) k' a' t'
      e')
    (hun : Unmoved C₁ C₂ c) : SameEntry C₂ u' t' e e' := by
  refine hdone.whole.same h₂ hL.alone hvalues hwhole' (fun x hx => ?_)
    fun x hx => ?_
  · refine scopeOk_same (hdone.scopes x hx ?_)
      (hbase'.scopes x (hwhole'.methods x hx))
    exact (em (x ∈ (C₁.classes c).functionTable)).imp id (hun.methods x hx)
  · have hx' := hwhole'.late.props x (hwhole'.origin ▸ hx)
    obtain ⟨ic', hic'⟩ := Option.isSome_iff_exists.mp
      (hwhole'.entry.props x hx').2
    have hright' := (hinv'.infos _ _ hic').resolve_left id
    have hx₁ := hdone.whole.late.props x (hdone.whole.origin ▸ hx)
    obtain ⟨ic, hic⟩ := Option.isSome_iff_exists.mp
      (hdone.whole.entry.props x hx₁).2
    have hright : ic.offset = (C₂.info x.2).offset
        ∧ IsCopy C₂ u' (C₂.info x.2).ce ic.ce := by
      rcases hdone.inv.infos _ _ hic with hJ | h
      · obtain ⟨y, hy, hyx⟩ := List.mem_map.mp hJ
        obtain ⟨ic₀, hic₀, hoff, hce⟩ := hold y hy
        have hoff₂ := hun.offsets y hy
        have hce₂ := (hL.infos c y hy).1
        rw [hyx] at hic₀ hoff hce hoff₂ hce₂
        rw [hdone.infos _ _ hic₀] at hic
        obtain rfl := Option.some.inj hic
        rw [hoff₂, hce₂]
        exact ⟨hoff, hdone.copies _ _ hce⟩
      · exact h
    rw [hic, hic']
    exact .some ⟨hright.1.trans hright'.1.symm, _, hright.2, hright'.2⟩

end Claim

/-- What was copied before the class was linked and completed later is what
is copied in one go, if and only if linking has added no method of a trait
and moved no property. -/
theorem complete_same_iff (C₁ C₂ : Creator) (c : ClassId)
    (hL : Linking C₁ C₂ c) (h₁ : C₁.Engine) (h₂ : C₂.Engine)
    (henums : C₂.CasesOfEnums c) (s₀ u u' : Child) (hu : Reached C₁ s₀ u)
    (a : Addr) (hcopy : u.find (lower (C₁.classes c).name) = some (.own a))
    (n : Nat) (r : Ref)
    (hlater : C₂.create n (.creator c) true u = some (r, u'))
    (t₀ t t' : Child) (ht : Reached C₁ t₀ t ∨ Reached C₂ t₀ t)
    (hnone : t.find (lower (C₁.classes c).name) = none) (m : Nat) (r' : Ref)
    (honce : C₂.create m (.creator c) true t = some (r', t')) :
    ∃ e a' e', r = .own a ∧ u'.entries[a]? = some e ∧ r' = .own a'
      ∧ t'.entries[a']? = some e'
      ∧ (SameEntry C₂ u' t' e e' ↔ Unmoved C₁ C₂ c) := by
  obtain ⟨h₀, hs⟩ := hu.settled h₁
  obtain ⟨ht₀, hts⟩ : Fresh C₂ t₀ ∧ Settled C₂ t₀ t := by
    rcases ht with ht | ht
    · obtain ⟨hf, hst⟩ := ht.settled h₁
      exact ⟨hL.fresh hf, hL.settled h₁ hst hnone⟩
    · exact ht.settled h₂
  obtain ⟨hr, k, e, hdone⟩ := completed hL h₁ h₂ h₀ hs hcopy hlater
  rw [← hL.name] at hnone
  obtain ⟨hinv', a', e', k', hr', he', hbase', hwhole'⟩ := create_whole h₂ ht₀
    hts ((hL.declared_iff c).mpr hL.declared) hL.user.2 hL.mutable.2
    hL.linked.2 hnone honce
  refine ⟨e, a', e', hr, hdone.entry, hr', he', ?_⟩
  have hvalues : ∀ w ∈ (C₂.classes c).defaultProperties
      ++ (C₂.classes c).defaultStatics, ∀ d, w.cls? = some d → d ≠ c := by
    intro w hw d hd heq
    have := henums w hw d hd
    rw [heq, hL.noEnum.2] at this
    cases this
  have hold := hL.infos_before h₁ h₀ hs hcopy
  exact ⟨hdone.unmoved hL hold hinv',
    hdone.same hL hold hinv' h₂ hvalues hbase' hwhole'⟩

-- ================================================================ examples

/-- Class 0, an anonymous class that uses a trait with a method, and its
parent, class 1, each with a property. -/
def traitUserClass (linked : Bool) (c : ClassId) : ClassEntry :=
  if c = 0 then
    { bareClass [97] (if linked then some 1 else none) with
      anon := true, linked := linked,
      functionTable := if linked then [([109], 0)] else [],
      propertiesInfo := ([112], 0) :: if linked then [([113], 1)] else [] }
  else if c = 1 then
    { bareClass [98] none with propertiesInfo := [([113], 1)] }
  else bareClass [99] none

/-- The two classes, before and after the first one is linked. -/
def traitUser (linked : Bool) : Creator :=
  { classes := traitUserClass linked, scope := fun _ => some 0,
    info := fun i => if i = 0 then ⟨0, if linked then 32 else 16, []⟩
      else ⟨1, 16, []⟩,
    classTable := [([97], 0), ([98], 1)] }

theorem traitUser_cases (linked : Bool) (c : ClassId) :
    c = 0 ∨ c = 1 ∨ (traitUser linked).classes c = bareClass [99] none := by
  by_cases h0 : c = 0
  · exact Or.inl h0
  · by_cases h1 : c = 1
    · exact Or.inr (Or.inl h1)
    · refine Or.inr (Or.inr ?_)
      show traitUserClass linked c = _
      unfold traitUserClass
      rw [if_neg h0, if_neg h1]

theorem traitUser_declared {linked : Bool} {c : ClassId}
    (h : (traitUser linked).Declared c) : c = 0 ∨ c = 1 := by
  rcases traitUser_cases linked c with hc | hc | hc
  · exact Or.inl hc
  · exact Or.inr hc
  · rcases h with h | h
    · change (((traitUser linked).classes c).internal
        || ((traitUser linked).classes c).preloaded) = true at h
      rw [hc] at h
      cases h
    · rw [hc] at h
      have hnone : (traitUser linked).classTable.lookup
          (lower (bareClass [99] none).name) = none := rfl
      rw [hnone] at h
      cases h

theorem traitUser_engine (linked : Bool) : (traitUser linked).Engine := by
  have h0 : (traitUser linked).Declared 0 := Or.inr rfl
  have h1 : (traitUser linked).Declared 1 := Or.inr rfl
  refine ⟨⟨by cases linked <;> decide, ?_, ?_, ?_⟩, ?_, ?_, ?_, ?_, ?_, ?_,
    ?_, ?_⟩
  · intro e he _
    rcases List.mem_cons.mp he with rfl | he
    · exact h0
    · rw [List.mem_singleton.mp he]
      exact h1
  · intro c hc d hd
    have hrefs : d = 0 ∨ d = 1 := by
      rcases traitUser_declared hc with rfl | rfl
      · cases linked with
        | false => exact Or.inl (List.mem_singleton.mp hd)
        | true =>
            rcases List.mem_cons.mp hd with rfl | hd
            · exact Or.inr rfl
            · rcases List.mem_cons.mp hd with rfl | hd
              · exact Or.inl rfl
              · rcases List.mem_cons.mp hd with rfl | hd
                · exact Or.inl rfl
                · exact Or.inr (List.mem_singleton.mp hd)
      · exact Or.inr (List.mem_singleton.mp hd)
    rcases hrefs with rfl | rfl
    · exact h0
    · exact h1
  · intro i name c hn
    change name ∈ PropInfo.types (if i = 0 then _ else _) at hn
    split at hn
    · cases hn
    · cases hn
  · intro c hc
    rcases traitUser_cases linked c with rfl | rfl | h
    · cases hc
    · cases hc
    · change (((traitUser linked).classes c).internal
        || ((traitUser linked).classes c).preloaded) = true at hc
      rw [h] at hc
      cases hc
  · intro c
    rcases traitUser_cases linked c with rfl | rfl | h
    · cases linked <;> decide
    · exact List.nodup_nil
    · rw [h]
      exact List.nodup_nil
  · intro c
    rcases traitUser_cases linked c with rfl | rfl | h
    · cases linked <;> decide
    · exact List.nodup_singleton _
    · rw [h]
      exact List.nodup_nil
  · intro c
    rcases traitUser_cases linked c with rfl | rfl | h
    · exact List.nodup_nil
    · exact List.nodup_nil
    · rw [h]
      exact List.nodup_nil
  · intro c p hp
    rcases traitUser_cases linked c with rfl | rfl | h
    · cases linked with
      | false => cases hp
      | true =>
          obtain rfl := Option.some.inj hp
          exact Nat.le_refl 0
    · cases hp
    · rw [h] at hp
      cases hp
  · intro c p hp
    rcases traitUser_cases linked c with rfl | rfl | h
    · rintro (h | h)
      · cases h
      · cases h
    · cases hp
    · rw [h] at hp
      cases hp
  · intro c x hx d _
    rcases traitUser_cases linked c with rfl | rfl | h
    · rintro (h | h)
      · cases h
      · cases h
    · cases hx
    · rw [h] at hx
      cases hx
  · intro c hc
    rcases traitUser_cases linked c with rfl | rfl | h
    · cases linked with
      | false => rfl
      | true => cases hc
    · cases hc
    · rw [h] at hc
      cases hc

theorem traitUser_linking : Linking (traitUser false) (traitUser true) 0 where
  declared := Or.inr rfl
  table := rfl
  others d hd := by
    show traitUserClass true d = traitUserClass false d
    unfold traitUserClass
    rw [if_neg hd, if_neg hd]
  name := rfl
  anon := ⟨rfl, rfl⟩
  linked := ⟨rfl, rfl⟩
  user := ⟨rfl, rfl⟩
  mutable := ⟨rfl, rfl⟩
  noEnum := ⟨rfl, rfl⟩
  alone d hd := by
    rcases traitUser_cases true d with rfl | rfl | h
    · cases hd
    · cases hd
    · rw [h] at hd
      cases hd
  interfaces := List.not_mem_nil
  scope _ _ _ := rfl
  methods x hx := by cases hx
  added x _ _ := by
    refine Or.inr ⟨rfl, fun d n hm => ?_⟩
    rcases traitUser_cases false d with rfl | rfl | h
    · cases hm
    · cases hm
    · rw [h] at hm
      cases hm
  props x hx := by
    rw [List.mem_singleton.mp hx]
    exact ⟨List.mem_cons_self, rfl⟩
  infos d x hx := by
    rcases traitUser_cases false d with rfl | rfl | h
    · rw [List.mem_singleton.mp hx]
      exact ⟨rfl, fun hne => absurd rfl hne⟩
    · rw [List.mem_singleton.mp hx]
      exact ⟨rfl, fun _ => rfl⟩
    · rw [h] at hx
      cases hx
  consts x hx := by cases hx
  statics hne := absurd rfl hne

/-- A thread that has copied the class before it was linked, and two that
have the linked class, one of them by completing it. -/
theorem traitUser_runs : ∃ u u' t' e e',
    Reached (traitUser false) emptyChild u ∧ u.find [97] = some (.own 0)
      ∧ (traitUser true).create 8 (.creator 0) true u = some (.own 0, u')
      ∧ (traitUser true).create 8 (.creator 0) true emptyChild
        = some (.own 0, t')
      ∧ u'.entries[0]? = some e ∧ t'.entries[0]? = some e'
      ∧ e.functionTable = [([109], 0)]
      ∧ u'.scopes 0 = some (some (.creator 0)) := by
  have hlater : (((traitUser false).create 8 (.creator 0) true
      emptyChild).bind fun q => ((traitUser true).create 8 (.creator 0) true
        q.2).map fun p => (q.2.find [97], p.1,
          p.2.entries[0]?.map Entry.functionTable, p.2.scopes 0))
      = some (some (.own 0), .own 0, some [([109], 0)],
        some (some (.creator 0))) := rfl
  have honce : ((traitUser true).create 8 (.creator 0) true emptyChild).map
      (fun p => (p.1, p.2.entries[0]?.isSome)) = some (.own 0, true) := by
    decide
  obtain ⟨q, hq, h⟩ := Option.bind_eq_some_iff.mp hlater
  obtain ⟨⟨r, u'⟩, hu', h⟩ := Option.map_eq_some_iff.mp h
  obtain ⟨hfind, h⟩ := Prod.mk.inj h
  obtain ⟨rfl, h⟩ := Prod.mk.inj h
  obtain ⟨hmap, hscope⟩ := Prod.mk.inj h
  obtain ⟨e, he, hfun⟩ := Option.map_eq_some_iff.mp hmap
  obtain ⟨⟨r', t'⟩, ht', h⟩ := Option.map_eq_some_iff.mp honce
  obtain ⟨rfl, hsome⟩ := Prod.mk.inj h
  obtain ⟨e', he'⟩ := Option.isSome_iff_exists.mp hsome
  have hknown : Known (traitUser false) emptyChild (.creator 0) :=
    show (traitUser false).Declared 0 from Or.inr rfl
  exact ⟨q.2, u', t', e, e', .create (.fresh (emptyChild_fresh _)) hknown hq,
    hfind, hu', ht', he, he', hfun, hscope⟩

theorem complete_same_iff_trait : ∃ u u' t' e e',
    u'.entries[0]? = some e ∧ t'.entries[0]? = some e'
      ∧ (traitUser true).create 8 (.creator 0) true u = some (.own 0, u')
      ∧ (traitUser true).create 8 (.creator 0) true emptyChild
        = some (.own 0, t')
      ∧ (SameEntry (traitUser true) u' t' e e'
        ↔ Unmoved (traitUser false) (traitUser true) 0) := by
  obtain ⟨u, u', t', e, e', hu, hfind, hlater, honce, -⟩ := traitUser_runs
  have henums : (traitUser true).CasesOfEnums 0 := by
    intro w hw
    cases hw
  obtain ⟨e, a', e', -, he, ha', he', hiff⟩ := complete_same_iff _ _ 0
    traitUser_linking (traitUser_engine _) (traitUser_engine _) henums _ u u'
    hu 0 hfind 8 _ hlater emptyChild emptyChild t'
    (Or.inr (.fresh (emptyChild_fresh _))) rfl 8 _ honce
  obtain rfl := Ref.own.inj ha'
  exact ⟨u, u', t', e, e', he, he', hlater, honce, hiff⟩

/-- The trait's method keeps the creator's class as its scope. -/
theorem complete_not_same : ∃ u u' t' e e',
    Linking (traitUser false) (traitUser true) 0
      ∧ Reached (traitUser false) emptyChild u
      ∧ u.find (lower ((traitUser false).classes 0).name) = some (.own 0)
      ∧ (traitUser true).create 8 (.creator 0) true u = some (.own 0, u')
      ∧ (traitUser true).create 8 (.creator 0) true emptyChild
        = some (.own 0, t')
      ∧ u'.entries[0]? = some e ∧ t'.entries[0]? = some e'
      ∧ ¬ SameEntry (traitUser true) u' t' e e' := by
  obtain ⟨u, u', t', e, e', hu, hfind, hlater, honce, he, he', hfun, hscope⟩ :=
    traitUser_runs
  refine ⟨u, u', t', e, e', traitUser_linking, hu, hfind, hlater, honce, he,
    he', fun hsame => ?_⟩
  have hrel := hsame.scopes ([109], 0) (by rw [hfun]; exact List.mem_cons_self)
  rw [hscope] at hrel
  obtain ⟨o, -, hrel⟩ := rel_some hrel
  obtain ⟨p, -, d, hd, -⟩ := rel_some hrel
  obtain ⟨rfl, h | h⟩ := hd
  · cases h
  · cases h

end PmmpThread.Model.Classes
