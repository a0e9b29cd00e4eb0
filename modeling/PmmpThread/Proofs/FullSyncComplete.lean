/-
What a full sync leaves: every object that can be reached has a
connection of the thread whose local table has all that can be cached.

# What is assumed

The objects that can be reached are those of a set `S` that is closed
under `Links`: the entries that store objects and the gc queues. Their
object entries name live objects, and what the thread's connections that
are in sync have cached is what the store has (`Agrees`). The first is a
fact about the entries that a full sync does not change, the second is
kept by each of its moves as long as everything it restores can be
restored (`Agrees.syncs`).

# What is not given

A connection is an object of a class that the thread has to initialise.
Where that fails, null is restored, and the full sync takes it for an
object. A closure is stored as a pointer into the heap of its thread. Restoring
it fails if it is a first-class callable of a function that the thread
does not know, and faults once the closure is freed. A full sync puts the
null of a failed restore into the local table, where `pmmpthread_store_read`
would not: there it stays and is read as the value. So the sync is
complete if and only if the objects that it comes to can be connected to
and the closures can be restored or are cached already (`Restorable`).
-/
import PmmpThread.Proofs.Births
import PmmpThread.Proofs.FullSyncEnds

namespace PmmpThread.Model.World

open Zend

variable {E : Engine} {t : ThreadId} {w w' : World} {S : Set TsAddr}

-- ========================================================== what is assumed

/-- An entry of `s` names `s'`, or the thread's connection to `s` has it in
its gc queue. -/
def Links (w : World) (t : ThreadId) (s s' : TsAddr) : Prop :=
  (∃ k, Names w s k s') ∨ Queued w t s s'

/-- What the thread's connections that are in sync have cached is what
the store has. -/
def Agrees (w : World) (t : ThreadId) (S : Set TsAddr) : Prop :=
  ∀ s ∈ S, ∀ c z, w.mem.get c = some z → z.owner = t → z.tsObj = some s →
    z.loc.modcount = w.modcountOf s → ∀ k v, z.loc.cached k = some v →
    ∃ st, w.entry s k = some st ∧ storageIsCacheable (some st) = true
      ∧ Denotes w st v

/-- What a full sync has to restore can be restored. -/
structure Restorable (E : Engine) (w : World) (t : ThreadId)
    (S : Set TsAddr) : Prop where
  intact : ∀ s ∈ S, ∀ k st, w.entry s k = some st →
    storageIsCacheable (some st) = true →
    Intact E w t st ∨ KeepsClosure w t s k st
  strings : ∀ s ∈ S, ∀ k owner p b,
    w.entry s k = some (.stringPtr owner p b) →
    w.strings.get p = some ⟨owner, b⟩

theorem closureFate_mono (hext : Extends w w')
    (hun : ∀ a, w'.unbuilt t a = w.unbuilt t a) {p : ClosurePtr}
    (h : w.closureFate E t p = .value) :
    w'.closureFate E t p = .value := by
  have hbound : ∀ cl, w'.boundFate E t cl = w.boundFate E t cl := by
    intro cl
    unfold boundFate
    rw [useFaults_congr hun]
  have hconn : ∀ a, w.thisFate t a = .value →
      w'.thisFate t a = .value := by
    intro a ha
    unfold thisFate at ha ⊢
    rw [hun]
    cases hz : w.mem.get a with
    | none =>
        rw [hz] at ha
        cases ha
    | some z =>
        obtain ⟨l, hl⟩ := hext.mem hz
        rw [hz] at ha
        rw [hl]
        exact ha
  unfold closureFate at h ⊢
  cases hp : w.closures[p]? with
  | none =>
      rw [hp] at h
      cases h
  | some cl =>
      obtain ⟨hlt, heq⟩ := List.getElem?_eq_some_iff.mp hp
      rw [List.prefix_iff_getElem?.mp hext.closures p hlt, heq]
      rw [hp] at h
      simp only [] at h ⊢
      split at h
      case isFalse => cases h
      case isTrue hlive =>
        rw [if_pos hlive]
        cases hth : cl.thisObj with
        | none =>
            simp only [hth] at h ⊢
            rw [hbound]
            exact h
        | some a =>
            simp only [hth] at h ⊢
            cases hf : w.thisFate t a with
            | value =>
                rw [hf] at h
                rw [hconn a hf, hbound]
                exact h
            | failed =>
                rw [hf] at h
                cases h
            | fault =>
                rw [hf] at h
                cases h

/-- What can be restored can still be restored after a sync. -/
theorem Intact.syncs {own : ThreadId → Prop} {st : Storage} (hs : Skel w)
    (h : Intact E w t st) (hsy : Syncs E t own w w') : Intact E w' t st := by
  have hext := hsy.extends (hs.connecting t)
  have hun := hsy.unbuilt hs
  cases st with
  | object a b =>
      obtain ⟨o, ho, -⟩ := Option.map_eq_some_iff.mp h.1
      obtain ⟨s, ha, -⟩ := Option.bind_eq_some_iff.mp ho
      exact ⟨hext.birthOf h.1, (hsy.connectable hs ha).trans h.2⟩
  | closure p thisObj owner => exact closureFate_mono hext hun h
  | stringPtr owner p b =>
      change (if (w.strings.get p).isSome then Fate.value else .fault)
        = .value at h
      cases hp : w.strings.get p with
      | none =>
          rw [hp] at h
          cases h
      | some s =>
          show (if (w'.strings.get p).isSome then Fate.value else .fault)
            = .value
          rw [hext.strings hp]
          rfl
  | _ => exact h

theorem Restorable.syncs {own : ThreadId → Prop} (hs : Skel w)
    (h : Restorable E w t S) (hsy : Syncs E t own w w') :
    Restorable E w' t S := by
  have hext := hsy.extends (hs.connecting t)
  have hentry := fun s k => (entry_of_props (hsy.props (hs.connecting t)) s k).1
  refine ⟨fun s hsS k st he hc => ?_, fun s hsS k owner p b he => ?_⟩
  · rw [hentry] at he
    exact (h.intact s hsS k st he hc).imp (·.syncs hs hsy)
      (KeepsClosure.syncs hsy hs he)
  · rw [hentry] at he
    exact hext.strings (h.strings s hsS k owner p b he)

/-- The storages are what the invariants of the world say. -/
theorem Restorable.sound (h : Restorable E w t S) {s : TsAddr} (hs : s ∈ S)
    {k : Key} {st : Storage} (he : w.entry s k = some st) : Sound w st := by
  cases st with
  | object a b =>
      rcases h.intact s hs k _ he rfl with hi | ⟨p, thisObj, owner, hst, -⟩
      · exact fun _ => hi.1
      · cases hst
  | stringPtr owner p b => exact h.strings s hs k owner p b he
  | _ => trivial

/-- Where nothing is cached, restoring succeeds. -/
theorem Restorable.restores (h : Restorable E w t S) (hs : Skel w)
    {c : Addr} {x : Conn} (hx : w.conn c = some x) (ho : x.z.owner = t)
    (hxS : x.s ∈ S) {k : Key} {st : Storage}
    (hst : x.o.props.hash.find k = some st)
    (hc : storageIsCacheable (some st) = true)
    (hn : x.z.loc.cached k = none) : w.restoreFate E t st = .value := by
  obtain ⟨hz, hts, hox⟩ := conn_eq_some.mp hx
  have he : w.entry x.s k = some st := (entry_eq hox k).trans hst
  rcases h.intact x.s hxS k st he hc with hi | ⟨-, -, -, -, c', z, v, hz',
    ho', hts', hv, -⟩
  · exact fate_of_intact hi
  · have hcc := hs.only hz ho hts c' z hz' ho' hts'
    rw [hcc, hz] at hz'
    rw [← Option.some.inj hz', hn] at hv
    cases hv

-- ============================================================= what is kept

theorem Agrees.grow (h : Agrees w t S) (hg : Grow E t w w') :
    Agrees w' t S := by
  intro s hs c z hz ho hts hm k v hv
  rcases hg.new hz with hz | ⟨-, hnew⟩
  · rw [hg.modcountOf] at hm
    obtain ⟨st, he, hc, hd⟩ := h s hs c z hz ho hts hm k v hv
    refine ⟨st, ?_, hc, hd.extends hg.extends⟩
    rw [(entry_of_props hg.props s k).1]
    exact he
  · rw [hnew.cached] at hv
    cases hv

/-- One local table changes. -/
theorem Agrees.modify (h : Agrees w t S) {c : Addr} {x : Conn}
    (hx : w.conn c = some x) {f : ZObj → Local}
    (hf : x.s ∈ S → x.z.owner = t →
      (f x.z).modcount = x.o.props.modcount →
      ∀ k v, (f x.z).cached k = some v →
        (x.z.loc.modcount = x.o.props.modcount ∧ x.z.loc.cached k = some v)
        ∨ Fits w x.o.props k v) :
    Agrees { w with mem := w.mem.modify c fun z =>
      { z with loc := f z } } t S := by
  intro s hsS c' z hz ho hts hm k v hv
  obtain ⟨hzx, htsx, hox⟩ := conn_eq_some.mp hx
  have hext := extends_modify_loc w c f
  have hmean : ∀ {st}, w.entry s k = some st →
      storageIsCacheable (some st) = true → Denotes w st v →
      ∃ st, w.entry s k = some st ∧ storageIsCacheable (some st) = true
        ∧ Denotes { w with mem := w.mem.modify c fun z =>
          { z with loc := f z } } st v :=
    fun he hc hd => ⟨_, he, hc, hd.extends hext⟩
  change (w.mem.modify c _).get c' = some z at hz
  change z.loc.modcount = w.modcountOf s at hm
  by_cases hc : c' = c
  · rw [hc, Heap.get_modify_self, hzx] at hz
    replace hz := Option.some.inj hz
    rw [← hz] at ho hts hm hv
    have hss : x.s = s := Option.some.inj (htsx.symm.trans hts)
    rw [← hss, modcountOf_eq hox] at hm
    rcases hf (hss ▸ hsS) ho hm k v hv with ⟨hmx, hvx⟩ | ⟨st, hfind, hcst, hd⟩
    · rw [← modcountOf_eq hox, hss] at hmx
      obtain ⟨st, he, hcst, hd⟩ := h s hsS c x.z hzx ho hts hmx k v hvx
      exact hmean he hcst hd
    · refine hmean ?_ hcst hd
      rw [← hss, entry_eq hox]
      exact hfind
  · rw [Heap.get_modify_ne _ _ hc] at hz
    obtain ⟨st, he, hcst, hd⟩ := h s hsS c' z hz ho hts hm k v hv
    exact hmean he hcst hd

theorem Agrees.syncs (hsy : Syncs E t (· = t) w w') :
    Skel w → OwnOf w t → w.frame t = .idle → Restorable E w t S →
      Agrees w t S → Agrees w' t S := by
  induction hsy with
  | refl => exact fun _ _ _ _ h => h
  | grow _ hg ih =>
      exact fun hs hown hi hr h => (ih hs hown hi hr h).grow (.single hg)
  | @sync w u c x hu hx ho ih =>
      intro hs hown hi hr h
      obtain ⟨hsu, hownu, hiu⟩ := own_syncs hs hown hi hu
      obtain ⟨hz, -, hox⟩ := conn_eq_some.mp hx
      refine (ih hs hown hi hr h).modify hx (f := fun _ => _)
        fun hxS hot hm k v hv => ?_
      rw [Local.cached_initProps, cached_syncLocal] at hv
      split at hv
      case isTrue hin => exact Or.inl ⟨hin, hv⟩
      case isFalse =>
        cases hst : x.o.props.hash.find k with
        | none =>
            rw [hst] at hv
            obtain ⟨-, hkeep⟩ := Option.filter_eq_some_iff.mp hv
            cases hkeep
        | some st =>
            rw [hst] at hv
            obtain ⟨hcv, hkeep⟩ := Option.filter_eq_some_iff.mp hv
            have hheld := (hownu.cached hz hot
              (by rw [hiu]; exact List.not_mem_nil) hcv).1
            rw [hot] at hkeep
            obtain ⟨hcst, hd⟩ := keep_denotes hsu ((hr.syncs hs hu).sound hxS
              ((entry_eq hox k).trans hst)) hkeep hheld
            exact Or.inr ⟨st, hst, hcst, hd⟩
  | @put w u u₁ u₂ c x k' st r hu hx ho hst hcache hn hrz hne hu₂ hz ih ih' =>
      intro hs hown hi hr h
      obtain ⟨hsu, hownu, hiu⟩ := own_syncs hs hown hi hu
      obtain ⟨hs₁, hg, n, hx₂⟩ := conn_restored hsu hx hrz hu₂ hz
      have hsy₁ : Syncs E t (· = t) u u₁ := .of_grow hg
      obtain ⟨-, hown₁, hi₁⟩ := own_syncs hsu hownu hiu hsy₁
      have hru := hr.syncs hs hu
      refine (ih' hs₁ hown₁ hi₁ (hru.syncs hsu hsy₁)
        ((ih hs hown hi hr h).grow hg)).modify hx₂
        (f := fun z => z.loc.put z.declared k' r.zval)
        fun hxS hot hm k v hv => ?_
      change (x.z.loc.put x.z.declared k' r.zval).cached k = some v at hv
      rw [Local.cached_put] at hv
      split at hv
      case isFalse => exact Or.inl ⟨hm, hv⟩
      case isTrue hk =>
        have hfate := restoreZval_fate (E := E) (t := t) hsu st
        rw [hru.restores hsu hx ho hxS hst hcache hn, hrz] at hfate
        cases r with
        | failed => cases hfate
        | fault => cases hfate
        | value v' =>
            have hvv := (Option.filter_eq_some_iff.mp hv).1
            have hd := restoreZval_denotes hsu (hru.sound hxS
              ((entry_eq (conn_eq_some.mp hx).2.2 k').trans hst)) hrz
            rw [show v' = v from Option.some.inj hvv] at hd
            rw [hk]
            exact Or.inr ⟨st, hst, hcache,
              hd.extends (hu₂.extends (hs₁.connecting t))⟩

-- ============================================================ what is cached

/-- What one turn of the loop can do. -/
theorem fullSyncEntry_cases {recurse : World → Addr → Option World}
    {c : Addr} {x : Conn} {k : Key} {st : Storage}
    (hx : w.conn c = some x)
    (h : fullSyncEntry E t recurse c w (k, st) = some w') :
    (∃ v, x.z.loc.cached k = some v
        ∧ ((∃ l, v = .object l ∧ recurse w l = some w')
          ∨ storageIsPmmpthreadObj st = false ∧ w' = w))
      ∨ x.z.loc.cached k = none
        ∧ (storageIsCacheable (some st) = false ∧ w' = w
          ∨ ∃ r u u', w.restoreZval E t st = (r, u) ∧ r ≠ .fault
            ∧ ((∃ l, r = .value (.object l) ∧ recurse u l = some u')
              ∨ storageIsPmmpthreadObj st = false ∧ u' = u)
            ∧ w' = u'.putLocal c k r.zval) := by
  unfold fullSyncEntry at h
  rw [(conn_eq_some.mp hx).1, Option.bind_some] at h
  cases hn : x.z.loc.cached k with
  | some v =>
      rw [hn] at h
      simp only [] at h
      refine Or.inl ⟨v, rfl, ?_⟩
      split at h
      case isTrue =>
        cases v with
        | object l => exact Or.inl ⟨l, rfl, h⟩
        | _ => cases h
      case isFalse hobj =>
        exact Or.inr ⟨Bool.not_eq_true _ ▸ hobj, (Option.some.inj h).symm⟩
  | none =>
      rw [hn] at h
      simp only [] at h
      refine Or.inr ⟨rfl, ?_⟩
      split at h
      case isFalse hc =>
        exact Or.inl ⟨Bool.not_eq_true _ ▸ hc, (Option.some.inj h).symm⟩
      case isTrue =>
        split at h
        case h_1 => cases h
        case h_2 r u hne hr =>
          refine Or.inr ⟨r, u, ?_⟩
          split at h
          case isFalse hobj =>
            exact ⟨u, hr, fun h => hne h, Or.inr ⟨Bool.not_eq_true _ ▸ hobj,
              rfl⟩, (Option.some.inj h).symm⟩
          case isTrue =>
            split at h
            case h_2 => cases h
            case h_1 l hl =>
              obtain ⟨u', hu', h⟩ := Option.map_eq_some_iff.mp h
              have hrv : r = .value (.object l) := by
                cases r with
                | value v => exact congrArg Restored.value hl
                | failed => cases hl
                | fault => cases hl
              refine ⟨u', hr, fun h => hne h, Or.inl ⟨l, hrv, hu'⟩, ?_⟩
              rw [← h, hl]

theorem restored_valid (hs : Skel w) {st : Storage} {r : Restored}
    {u : World} (h : w.restoreZval E t st = (r, u)) :
    validLocalCacheItem r.zval = true := by
  cases r with
  | failed => rfl
  | fault => rfl
  | value v =>
      have hm := restoreZval_means hs h
      cases v with
      | indirect =>
          cases st with
          | string permanent b =>
              cases permanent with
              | true => cases hm
              | false =>
                  obtain ⟨_, _, hv, -⟩ := hm
                  cases hv
          | stringPtr owner p b =>
              obtain ⟨_, _, _, -, hv, -⟩ := hm
              cases hv
          | closure p thisObj owner =>
              obtain ⟨_, _, _, hv, -⟩ := hm
              cases hv
          | object a b =>
              obtain ⟨_, hv, -⟩ := hm
              cases hv
          | socket s =>
              obtain ⟨_, hv, -⟩ := hm
              cases hv
          | _ => cases hm
      | _ => rfl

/-- After its turn an entry that can be cached is cached. -/
theorem fullSyncEntry_caches {recurse : World → Addr → Option World}
    {c : Addr} {x : Conn} {k : Key} {st : Storage} (hs : Skel w)
    (hown : OwnOf w t) (hi : w.frame t = .idle) (hx : w.conn c = some x)
    (ho : x.z.owner = t) (hm : x.z.loc.modcount = x.o.props.modcount)
    (hst : x.o.props.hash.find k = some st)
    (hc : storageIsCacheable (some st) = true)
    (hrec : ∀ {u l u'}, Syncs E t (· = t) w u → Held u t (.object l) →
      recurse u l = some u' → Syncs E t (· = t) u u' ∧ Leaves [c] u u')
    (h : fullSyncEntry E t recurse c w (k, st) = some w') :
    ∃ l v, w'.mem.get c = some { x.z with loc := l }
      ∧ l.modcount = w'.modcountOf x.s ∧ l.cached k = some v := by
  obtain ⟨hz, -, hox⟩ := conn_eq_some.mp hx
  have hin : ∀ {u}, Syncs E t (· = t) w u →
      x.z.loc.modcount = u.modcountOf x.s := by
    intro u hu
    rw [(entry_of_props (hu.props (hs.connecting t)) x.s k).2,
      modcountOf_eq hox]
    exact hm
  rcases fullSyncEntry_cases hx h with ⟨v, hv, hgo⟩ | ⟨hn, hgo⟩
  · rcases hgo with ⟨l, rfl, hr⟩ | ⟨-, rfl⟩
    · have hheld :=
        (hown.cached hz ho (by rw [hi]; exact List.not_mem_nil) hv).1
      obtain ⟨h1, h2⟩ := hrec (.refl w) hheld hr
      exact ⟨x.z.loc, _, h2 c List.mem_cons_self _ hz, hin h1, hv⟩
    · exact ⟨x.z.loc, v, hz, hin (.refl _), hv⟩
  · rcases hgo with ⟨hno, -⟩ | ⟨r, u, u', hr, hne, hgo, rfl⟩
    · rw [hc] at hno
      cases hno
    have hg := grow_of_restored hr (hs.connecting t)
    have hu' : Syncs E t (· = t) u u' ∧ u'.mem.get c = some x.z := by
      rcases hgo with ⟨l, rfl, hrl⟩ | ⟨-, rfl⟩
      · have hheld : Held u t (.object l) := by
          refine restoreZval_held hs (fun p b hst' => ⟨b, ?_⟩) hr
          rw [hst', ← entry_eq hox] at hst
          exact (hown.strings hst).1
        obtain ⟨h1, h2⟩ := hrec (.of_grow hg) hheld hrl
        exact ⟨h1, h2 c List.mem_cons_self _ (hg.mem hz)⟩
      · exact ⟨.refl _, hg.mem hz⟩
    refine ⟨x.z.loc.put x.z.declared k r.zval, r.zval, ?_, ?_, ?_⟩
    · show (u'.mem.modify c _).get c = _
      rw [Heap.get_modify_self, hu'.2]
      rfl
    · show x.z.loc.modcount = u'.modcountOf x.s
      exact hin ((Syncs.of_grow hg).trans hu'.1)
    · rw [Local.cached_put, if_pos rfl]
      exact Option.filter_eq_some_iff.mpr ⟨rfl, restored_valid hs hr⟩

/-- Thread `t` has a connection to `s` that is in sync and has a value
cached for each entry that can be cached, the one that is stored. -/
def Complete (w : World) (t : ThreadId) (s : TsAddr) : Prop :=
  ∃ c z, w.mem.get c = some z ∧ z.owner = t ∧ z.tsObj = some s
    ∧ z.loc.modcount = w.modcountOf s
    ∧ ∀ k st, w.entry s k = some st → storageIsCacheable (some st) = true →
      ∃ v, z.loc.cached k = some v ∧ Denotes w st v

theorem Visited.complete {w₀ : World} {s : TsAddr} (hs : Skel w₀)
    (hown : OwnOf w₀ t) (hi : w₀.frame t = .idle)
    (hw' : Syncs E t (· = t) w₀ w') (hagr : Agrees w' t S) (hsS : s ∈ S)
    (h : Visited E t w₀ w' s) : Complete w' t s := by
  obtain ⟨v, c, x, fuel, protect, hv, hx, ho, hxs, hend, hturns⟩ := h
  obtain ⟨hz, hts, hox⟩ := conn_eq_some.mp hx
  have h0 : Syncs E t (· = t) v (v.begun c x) := .sync (.refl v) hx ho
  have hz0 : (v.begun c x).mem.get c = some { x.z with loc :=
      (v.syncLocal x.z.owner x.o.props x.z.loc).initProps x.z.declared } := by
    show (v.mem.modify c _).get c = _
    rw [Heap.get_modify_self, hz]
    rfl
  -- the connection is in sync from the start of its loop on
  obtain ⟨l, hl, hlm, -⟩ := hend.keeps c _ x.s hz0 hts (by
    show (Local.initProps _ _).modcount = v.modcountOf x.s
    rw [Local.modcount_initProps, modcountOf_eq hox]
    exact Local.modcount_sync _ _ _ _)
  refine ⟨c, _, hl, ho, hxs ▸ hts, hxs ▸ hlm, fun k st he hc => ?_⟩
  have hfind : x.o.props.hash.find k = some st := by
    rw [(entry_of_props (hw'.props (hs.connecting t)) s k).1,
      ← (entry_of_props (hv.props (hs.connecting t)) s k).1, ← hxs,
      entry_eq hox] at he
    exact he
  obtain ⟨u, u', hu, hturn, hlast⟩ :=
    hturns (k, st) (HashTable.find_eq_some_iff.mp hfind)
  have hwu := hv.trans (h0.trans hu)
  obtain ⟨hsu, hownu, hiu⟩ := own_syncs hs hown hi hwu
  obtain ⟨lu, n, hxu, hm⟩ := conn_begun hs hown hi hv hx ho hu
  obtain ⟨l₁, v₁, hl₁, hm₁, hv₁⟩ :=
    fullSyncEntry_caches hsu hownu hiu hxu ho hm hfind hc
      (fun {u₁ o u₂} hu₁ ho₁ hr => by
        obtain ⟨h1, h2⟩ := fullSync_syncs visits_own fuel
          (own_syncs hs hown hi (hwu.trans hu₁)) ho₁ hr
        refine ⟨h1, fun c' hc' => h2 c' ?_⟩
        rw [List.mem_singleton.mp hc']
        exact List.mem_cons_self) hturn
  obtain ⟨l₂, hl₂, hm₂, hk₂⟩ := hlast.keeps c _ x.s hl₁ hts hm₁
  rw [hl] at hl₂
  injection hl₂ with hl₂
  injection hl₂ with _ _ hl₂
  have hcached : l.cached k = some v₁ := by
    rw [hl₂]
    exact hk₂ k v₁ hv₁
  obtain ⟨st', he', -, hd⟩ :=
    hagr s hsS c _ hl ho (hxs ▸ hts) (hxs ▸ hlm) k v₁ hcached
  rw [he] at he'
  rw [Option.some.inj he']
  exact ⟨v₁, hcached, hd⟩

-- ============================================================ where to go on

/-- The objects that can be reached from `s`. -/
def Reached (w : World) (t : ThreadId) (s : TsAddr) : Set TsAddr :=
  { p | Relation.ReflTransGen (Links w t) s p }

/-- A closure that is in a local table, and is to stay there, is due to
`G`. -/
def DueTo (G : Prop) (w : World) (t : ThreadId) (s : TsAddr) (k : Key)
    (p : ClosurePtr) : Prop :=
  ∀ c z q, w.mem.get c = some z → z.owner = t → z.tsObj = some s →
    z.loc.cached k = some (.closure q) →
    z.loc.modcount = w.modcountOf s ∨ q = p → G

theorem DueTo.grow {G : Prop} {s : TsAddr} {k : Key} {p : ClosurePtr}
    (h : DueTo G w t s k p) (hg : Grow E t w w') : DueTo G w' t s k p := by
  intro c z q hz ho hts hv hin
  rcases hg.new hz with hz | ⟨-, hnew⟩
  · rw [hg.modcountOf] at hin
    exact h c z q hz ho hts hv hin
  · rw [hnew.cached] at hv
    cases hv

/-- One local table changes. -/
theorem DueTo.modify {G : Prop} {s : TsAddr} {k : Key} {p : ClosurePtr}
    (h : DueTo G w t s k p) {c : Addr} {x : Conn} (hx : w.conn c = some x)
    {f : ZObj → Local}
    (hf : ∀ q, x.s = s → (f x.z).cached k = some (.closure q) →
      (f x.z).modcount = x.o.props.modcount ∨ q = p →
      (x.z.loc.cached k = some (.closure q)
        ∧ (x.z.loc.modcount = x.o.props.modcount ∨ q = p)) ∨ G) :
    DueTo G { w with mem := w.mem.modify c fun z =>
      { z with loc := f z } } t s k p := by
  intro c' z q hz ho hts hv hin
  obtain ⟨hzx, htsx, hox⟩ := conn_eq_some.mp hx
  change (w.mem.modify c _).get c' = some z at hz
  change z.loc.modcount = w.modcountOf s ∨ q = p at hin
  by_cases hc : c' = c
  · rw [hc, Heap.get_modify_self, hzx] at hz
    replace hz := Option.some.inj hz
    rw [← hz] at ho hts hv hin
    have hss : x.s = s := Option.some.inj (htsx.symm.trans hts)
    rw [← hss, modcountOf_eq hox] at hin
    rcases hf q hss hv hin with ⟨hvx, hinx⟩ | hG
    · rw [← modcountOf_eq hox, hss] at hinx
      exact h c x.z q hzx ho hts hvx hinx
    · exact hG
  · rw [Heap.get_modify_ne _ _ hc] at hz
    exact h c' z q hz ho hts hv hin

theorem DueTo.syncs {G : Prop} {own : ThreadId → Prop} {s : TsAddr}
    {k : Key} {p : ClosurePtr} {thisObj : Option Addr} {owner : ThreadId}
    (hsy : Syncs E t own w w') :
    Skel w → w.entry s k = some (.closure p thisObj owner) →
      (∀ u, Syncs E t own w u → u.closureFate E t p = .value → G) →
      DueTo G w t s k p → DueTo G w' t s k p := by
  induction hsy with
  | refl => exact fun _ _ _ h => h
  | grow _ hg ih =>
      exact fun hs he hG h => (ih hs he hG h).grow (.single hg)
  | @sync w u c x hu hx ho ih =>
      intro hs he hG h
      have heu := (entry_of_props (hu.props (hs.connecting t)) s k).1.trans he
      refine (ih hs he hG h).modify hx (f := fun _ => _)
        fun q hss hv hin => Or.inl ?_
      rw [Local.cached_initProps, cached_syncLocal] at hv
      split at hv
      case isTrue hm => exact ⟨hv, Or.inl hm⟩
      case isFalse =>
        rw [← hss, entry_eq (conn_eq_some.mp hx).2.2] at heu
        rw [heu] at hv
        obtain ⟨hcv, hkeep⟩ := Option.filter_eq_some_iff.mp hv
        exact ⟨hcv, Or.inr (beq_iff_eq.mp hkeep).symm⟩
  | @put w u u₁ u₂ c x k' st r hu hx ho hst hcache hn hr hne hu₂ hz ih ih' =>
      intro hs he hG h
      have hsu := hs.syncs hu
      obtain ⟨hs₁, hg, n, hx₂⟩ := conn_restored hsu hx hr hu₂ hz
      have heu := (entry_of_props (hu.props (hs.connecting t)) s k).1.trans he
      have he₁ := (entry_of_props hg.props s k).1.trans heu
      have hu₁ := hu.trans (.of_grow hg)
      refine (ih' hs₁ he₁ (fun v hv => hG v (hu₁.trans hv))
        ((ih hs he hG h).grow hg)).modify hx₂
        (f := fun z => z.loc.put z.declared k' r.zval)
        fun q hss hv hin => ?_
      change (x.z.loc.put x.z.declared k' r.zval).cached k = some _ at hv
      rw [Local.cached_put] at hv
      split at hv
      case isFalse => exact Or.inl ⟨hv, hin⟩
      case isTrue hk =>
        -- the closure was restored on the way
        change x.s = s at hss
        rw [← hss, entry_eq (conn_eq_some.mp hx).2.2, hk, hst] at heu
        have hfate := restoreZval_fate (E := E) (t := t) hsu st
        rw [hr, Option.some.inj heu] at hfate
        have hzv := Option.some.inj (Option.filter_eq_some_iff.mp hv).1
        cases r with
        | value v => exact Or.inr (hG u hu hfate.symm)
        | failed => cases hzv
        | fault => cases hzv

end PmmpThread.Model.World
