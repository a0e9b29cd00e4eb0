/-
A full sync ends, and it comes to everything that can be reached.

# What the sync goes by

A connection that is in sync keeps what it has cached, all through the
full sync (`Syncs.keeps`): the sync of its table changes nothing and a
value is only put where there is none. So for an entry that stores an
object there are two ways to go on, and both stand from the start of the
full sync to its end (`Goes`): the entry names a live object and nothing
else is cached under it, or the connection is in sync and has an object
cached under it, whatever became of the one that was stored.

# The measure

The recursion guard marks the objects on the stack. A thread has one
connection to an object, so the objects on the stack are different
objects, and there are no more of them than there are objects.

# An entry without an object

An entry that goes nowhere stays so, as long as no address is used twice
(`Gone`), and its turn is where the full sync takes null for an object
(`fullSyncEntry_barred`). That it does come to the entry follows from the
walks of `Proofs/FullSync.lean`, here for all that it goes by
(`fullSync_visited`).
-/
import PmmpThread.Proofs.CachedReads
import PmmpThread.Proofs.FullSync

namespace PmmpThread.Model.World

open Zend

variable {E : Engine} {t : ThreadId} {w₀ w w' : World}

-- ======================================================== what stays in sync

/-- Tables that are in sync stay so and keep what they have cached. -/
def KeepsInSync (w w' : World) : Prop :=
  ∀ c z s, w.mem.get c = some z → z.tsObj = some s →
    z.loc.modcount = w.modcountOf s →
      ∃ l, w'.mem.get c = some { z with loc := l }
        ∧ l.modcount = w'.modcountOf s
        ∧ ∀ k v, z.loc.cached k = some v → l.cached k = some v

theorem KeepsInSync.refl (w : World) : KeepsInSync w w :=
  fun _ z _ hz _ hm => ⟨z.loc, hz, hm, fun _ _ h => h⟩

theorem KeepsInSync.trans {u : World} (h : KeepsInSync w u)
    (h' : KeepsInSync u w') :
    KeepsInSync w w' := by
  intro c z s hz hts hm
  obtain ⟨l, hl, hlm, hk⟩ := h c z s hz hts hm
  obtain ⟨l', hl', hlm', hk'⟩ := h' c _ s hl hts hlm
  exact ⟨l', hl', hlm', fun k v hv => hk' k v (hk k v hv)⟩

theorem Grow.keeps (hg : Grow E t w w') : KeepsInSync w w' := by
  intro c z s hz _ hm
  refine ⟨z.loc, hg.mem hz, ?_, fun _ _ h => h⟩
  rw [hg.modcountOf]
  exact hm

/-- A change to one local table. -/
theorem keeps_modify {c : Addr} {x : Conn} (hx : w.conn c = some x)
    {f : ZObj → Local}
    (hf : x.z.loc.modcount = x.o.props.modcount →
      (f x.z).modcount = x.o.props.modcount
        ∧ ∀ k v, x.z.loc.cached k = some v → (f x.z).cached k = some v) :
    KeepsInSync w { w with mem := w.mem.modify c fun z =>
      { z with loc := f z } } := by
  intro c' z s hz hts hm
  obtain ⟨hzx, htsx, hox⟩ := conn_eq_some.mp hx
  by_cases hc : c' = c
  · rw [hc, hzx] at hz
    rw [← Option.some.inj hz] at hts hm ⊢
    have hss : x.s = s := Option.some.inj (htsx.symm.trans hts)
    rw [← hss, modcountOf_eq hox] at hm
    obtain ⟨hfm, hfk⟩ := hf hm
    refine ⟨f x.z, ?_, ?_, hfk⟩
    · show (w.mem.modify c _).get c' = _
      rw [hc, Heap.get_modify_self, hzx]
      rfl
    · show _ = w.modcountOf s
      rw [← hss, modcountOf_eq hox]
      exact hfm
  · refine ⟨z.loc, ?_, hm, fun _ _ h => h⟩
    show (w.mem.modify c _).get c' = _
    rw [Heap.get_modify_ne _ _ hc]
    exact hz

theorem Syncs.keeps {own : ThreadId → Prop} (h : Syncs E t own w w')
    (hs : Skel w) : KeepsInSync w w' := by
  induction h with
  | refl => exact .refl _
  | grow _ hg ih => exact (ih hs).trans (Grow.keeps (.single hg))
  | @sync w u c x hu hx ho ih =>
      refine (ih hs).trans (keeps_modify hx (f := fun _ => _) fun hm => ?_)
      have hno : u.syncLocal x.z.owner x.o.props x.z.loc = x.z.loc := by
        unfold syncLocal Local.sync
        rw [if_pos hm]
      rw [hno, Local.modcount_initProps]
      refine ⟨hm, fun k v hv => ?_⟩
      rw [Local.cached_initProps]
      exact hv
  | @put w u u₁ u₂ c x k st r hu hx ho hst hcache hn hr hne hu₂ hz ih ih' =>
      have hsu := hs.syncs hu
      obtain ⟨hs₁, hg, n, hx₂⟩ := conn_restored hsu hx hr hu₂ hz
      refine (((ih hs).trans hg.keeps).trans (ih' hs₁)).trans
        (keeps_modify hx₂ (f := fun z => z.loc.put z.declared k r.zval)
          fun hm => ⟨hm, fun k' v hv => ?_⟩)
      change (x.z.loc.put x.z.declared k r.zval).cached k' = some v
      rw [Local.cached_put]
      split
      case isTrue hk =>
        change x.z.loc.cached k' = some v at hv
        rw [hk, hn] at hv
        cases hv
      case isFalse => exact hv

/-- The objects of `w'` are old ones, with another local table, or are
constructed and have nothing in their gc queue. -/
def OldOrNew (w w' : World) : Prop :=
  ∀ a z, w'.mem.get a = some z →
    (∃ l, w.mem.get a = some { z with loc := l })
      ∨ w.mem.get a = none ∧ z.gc = [] ∧ z.tsObj ≠ none

theorem OldOrNew.trans {u : World} (h : OldOrNew w u) (h' : OldOrNew u w')
    (hext : Extends w u) : OldOrNew w w' := by
  intro a z hz
  rcases h' a z hz with ⟨l, hl⟩ | ⟨hn, hgc⟩
  · rcases h a _ hl with ⟨l', hl'⟩ | hnew
    · exact Or.inl ⟨l', hl'⟩
    · exact Or.inr hnew
  · refine Or.inr ⟨?_, hgc⟩
    cases hw : w.mem.get a with
    | none => rfl
    | some z' =>
        obtain ⟨l, hl⟩ := hext.mem hw
        rw [hn] at hl
        cases hl

theorem Grow.oldOrNew (hg : Grow E t w w') : OldOrNew w w' := by
  intro a z hz
  rcases hg.new hz with hz | ⟨hn, -, hgc, s, hts, -⟩
  · exact Or.inl ⟨z.loc, hz⟩
  · exact Or.inr ⟨hn, hgc, fun h => by rw [hts] at h; cases h⟩

theorem oldOrNew_modify (w : World) (c : Addr) (f : ZObj → Local) :
    OldOrNew w { w with mem := w.mem.modify c fun z =>
      { z with loc := f z } } := by
  intro a z hz
  change (w.mem.modify c _).get a = some z at hz
  rw [Heap.get_modify] at hz
  split at hz
  · obtain ⟨z', hz', rfl⟩ := Option.map_eq_some_iff.mp hz
    exact Or.inl ⟨z'.loc, hz'⟩
  · exact Or.inl ⟨z.loc, hz⟩

theorem Syncs.oldOrNew {own : ThreadId → Prop} (h : Syncs E t own w w')
    (hs : Skel w) : OldOrNew w w' := by
  induction h with
  | refl w => exact fun a z hz => Or.inl ⟨z.loc, hz⟩
  | grow hu hg ih =>
      exact (ih hs).trans (Grow.oldOrNew (.single hg))
        (hu.extends (hs.connecting t))
  | sync hu hx ho ih =>
      exact (ih hs).trans (oldOrNew_modify _ _ _)
        (hu.extends (hs.connecting t))
  | @put w u u₁ u₂ c x k st r hu hx ho hst hcache hn hr hne hu₂ hz ih ih' =>
      have hsu := hs.syncs hu
      obtain ⟨hs₁, hg, n, hx₂⟩ := conn_restored hsu hx hr hu₂ hz
      have hext := hu.extends (hs.connecting t)
      have hext₁ := hext.trans hg.extends
      have hext₂ := hext₁.trans (hu₂.extends (hs₁.connecting t))
      have h₁ := (ih hs).trans hg.oldOrNew hext
      exact (h₁.trans (ih' hs₁) hext₁).trans (oldOrNew_modify _ _ _) hext₂

-- ================================================ objects under construction

/-- What is not constructed in `w'` was not constructed in `w`. -/
def NoNewRaw (w w' : World) : Prop :=
  ∀ a z, w'.mem.get a = some z → z.tsObj = none →
    ∃ z₀, w.mem.get a = some z₀ ∧ z₀.owner = z.owner ∧ z₀.tsObj = none

/-- An object that is not constructed is the one its thread is about to
construct. -/
def Built (w : World) : Prop :=
  ∀ a z, w.mem.get a = some z → z.tsObj = none →
    ∃ scope defaults, w.frame z.owner = .allocated a scope defaults

theorem SameSkel.noNewRaw (h : SameSkel w w') : NoNewRaw w w' := by
  intro a z hz hts
  obtain ⟨z₀, hz₀, ho, hts₀⟩ := h.get hz
  exact ⟨z₀, hz₀, ho, hts₀.trans hts⟩

theorem OldOrNew.noNewRaw (h : OldOrNew w w') : NoNewRaw w w' := by
  intro a z hz hts
  rcases h a z hz with ⟨l, hl⟩ | ⟨-, -, hnew⟩
  · exact ⟨_, hl, rfl, hts⟩
  · exact absurd hts hnew

theorem Built.mono (h : Built w) (hraw : NoNewRaw w w')
    (hframe : w'.frame = w.frame) : Built w' := by
  intro a z hz hts
  obtain ⟨z₀, hz₀, ho, hts₀⟩ := hraw a z hz hts
  rw [hframe, ← ho]
  exact h a z₀ hz₀ hts₀

theorem Built.setFrame (h : Built w) {f : Frame}
    (hf : ∀ a scope defaults, w.frame t ≠ .allocated a scope defaults) :
    Built (w.setFrame t f) := by
  intro a z hz hts
  obtain ⟨scope, defaults, hfr⟩ := h a z hz hts
  have hne : z.owner ≠ t := fun ho => hf a scope defaults (ho ▸ hfr)
  refine ⟨scope, defaults, ?_⟩
  show Function.update w.frame t f z.owner = _
  rw [Function.update_of_ne hne]
  exact hfr

theorem Built.syncs {own : ThreadId → Prop} (h : Built w) (hs : Skel w)
    (hsy : Syncs E t own w w') : Built w' :=
  h.mono (hsy.oldOrNew hs).noNewRaw (hsy.extends (hs.connecting t)).frame

theorem Built.alloc (h : Built w) (hi : w.frame t = .idle)
    (declared : List Key) (scope : Scope) (defaults : List (List Default)) :
    Built ((w.objectAlloc E t declared).2.setFrame t
      (.allocated (w.objectAlloc E t declared).1 scope defaults)) := by
  intro a z hz hts
  change (w.mem.place (w.mem.next E.object) _).get a = some z at hz
  show ∃ _ _, Function.update w.frame t _ z.owner = _
  rw [Heap.get_place] at hz
  split at hz
  case isTrue ha =>
    rw [← Option.some.inj hz, Function.update_self, ha]
    exact ⟨scope, defaults, rfl⟩
  case isFalse =>
    obtain ⟨scope', defaults', hfr⟩ := h a z hz hts
    have hne : z.owner ≠ t := fun ho => by
      rw [ho, hi] at hfr
      cases hfr
    rw [Function.update_of_ne hne]
    exact ⟨scope', defaults', hfr⟩

theorem Built.ctor (h : Built w) (hs : Skel w) {o : Addr} {scope : Scope}
    {defaults : List (List Default)}
    (hf : w.frame t = .allocated o scope defaults)
    (hu : w.baseCtor E t o scope defaults = some w') :
    Built (w'.setFrame t .idle) := by
  have hfo := hs.frames t
  rw [hf] at hfo
  obtain ⟨z₀, hz₀, ho₀, -⟩ := hfo
  obtain ⟨hsame, hframe⟩ := baseCtor_same hs hz₀ hu
  intro a z hz hts
  obtain ⟨z₁, hz₁, ho₁, hts₁⟩ := hsame.get hz
  change (w.mem.modify o _).get a = some z₁ at hz₁
  by_cases hao : a = o
  · rw [hao, Heap.get_modify_self, hz₀] at hz₁
    rw [← Option.some.inj hz₁, hts] at hts₁
    cases hts₁
  · rw [Heap.get_modify_ne _ _ hao] at hz₁
    obtain ⟨scope', defaults', hfr⟩ := h a z₁ hz₁ (hts₁.trans hts)
    rw [ho₁] at hfr
    have hne : z.owner ≠ t := fun ho => by
      rw [ho, hf] at hfr
      injection hfr with hoa
      exact hao hoa.symm
    refine ⟨scope', defaults', ?_⟩
    show Function.update w'.frame t .idle z.owner = _
    rw [Function.update_of_ne hne, hframe]
    exact hfr

theorem Built.baseFree (h : Built w) (hs : Skel w) {o : Addr}
    {batch : List Addr} (hf : w.frame t = .freeing (o :: batch))
    (hu : w.baseFree t o = some w') : Built w' := by
  obtain ⟨s, hts, hres, ob, hob⟩ := hs.freeing hf
  have hfree : ∀ {g shared}, Built (w.freed t o s g shared) := by
    intro g shared
    refine h.mono (fun a z hz hz' => ⟨z, ?_, rfl, hz'⟩) rfl
    change (w.mem.free o).get a = some z at hz
    rw [Heap.get_free] at hz
    split at hz
    case isTrue => cases hz
    case isFalse => exact hz
  rcases baseFree_cases hts hob hres hu with ⟨-, rfl⟩ | ⟨-, -, rfl⟩
  · exact hfree
  · exact hfree

theorem step_built {act : Act} (hs : Skel w) (h : Built w)
    (hstep : step E w act = some w') : Built w' := by
  have hcon := fun t => hs.connecting t
  have hgrow : ∀ {a : ThreadId} {u : World}, Grow E a w u → Built u :=
    fun hg => h.mono hg.oldOrNew.noNewRaw hg.extends.frame
  have hsame : ∀ {u v : World}, Built u → SameSkel u v →
      v.frame = u.frame → Built v :=
    fun hu huv hfr => hu.mono huv.noNewRaw hfr
  have hidle : ∀ {u : World} {a : ThreadId} {f : Frame}, Built u →
      u.frame a = .idle → Built (u.setFrame a f) :=
    fun hu hi => hu.setFrame fun _ _ _ hn => by rw [hi] at hn; cases hn
  have hready : ∀ {u : World} {c x} {f : Frame}, w.ready c = some x →
      Built u → u.frame = w.frame → Built (u.setFrame x.z.owner f) :=
    fun hx hu hfr => hidle hu (hfr ▸ (ready_eq_some.mp hx).2)
  have hset := fun {c : Addr} {l : Local} =>
    hsame h (sameSkel_setLocal w c l) rfl
  cases step_effect hstep with
  | newString _ => exact hgrow (.single (.string _))
  | newClosure _ => exact hgrow (a := 0) (.single (.closure _))
  | freeString _ => exact h
  | freeClosure => exact h
  | alloc hi _ => exact h.alloc hi _ _ _
  | ctor hf hu => exact h.ctor hs hf hu
  | connect _ => exact hgrow (objectConnect_grow (hcon _) _)
  | bindGlobals _ => exact h
  | addGarbage _ _ _ _ _ =>
      exact hsame h (sameSkel_modify w _ _ fun _ => ⟨rfl, rfl⟩) rfl
  | collect _ =>
      exact hsame h (sameSkel_modify w _ _ fun _ => ⟨rfl, rfl⟩) rfl
  | release hb => exact hidle h (canRelease_spec hb).1
  | @baseFree t o batch u hf hu =>
      refine (h.baseFree hs hf hu).setFrame fun a scope defaults hn => ?_
      obtain ⟨s, hts, hres, ob, hob⟩ := hs.freeing hf
      have hfr : u.frame = w.frame := by
        rcases baseFree_cases hts hob hres hu with ⟨-, rfl⟩ | ⟨-, -, rfl⟩
        · rfl
        · rfl
      rw [hfr, hf] at hn
      cases hn
  | readCached _ _ => exact hset
  | readNothing _ => exact hset
  | @readRestored c k access x st v u hx _ _ hr =>
      have hg := grow_of_restored hr (hcon x.z.owner)
      exact hready hx (hset.mono hg.oldOrNew.noNewRaw hg.extends.frame)
        hg.extends.frame
  | @readThrew c k access x st u hx hr =>
      have hg := grow_of_restored hr (hcon x.z.owner)
      exact hset.mono hg.oldOrNew.noNewRaw hg.extends.frame
  | write hx _ _ => exact hready hx (hsame h (sameSkel_commit w _ _ _) rfl) rfl
  | delete hx _ => exact hready hx (hsame h (sameSkel_commit w _ _ _) rfl) rfl
  | deleteNothing _ _ => exact hsame h (sameSkel_commit w _ _ _) rfl
  | @fill t c k v hf =>
      refine (hsame h (sameSkel_updateLocalProperty w c k v) rfl).setFrame
        fun a scope defaults hn => ?_
      change w.frame t = _ at hn
      rw [hf] at hn
      cases hn
  | @drop t c k hf =>
      refine (hsame h (sameSkel_modify w c (fun z =>
        { z with loc := z.loc.del k }) fun _ => ⟨rfl, rfl⟩) rfl).setFrame
        fun a scope defaults hn => ?_
      change w.frame t = _ at hn
      rw [hf] at hn
      cases hn
  | @take act c x e p r u hx _ hr _ =>
      have hg := grow_of_restored hr (hcon x.z.owner)
      exact hsame (hgrow hg) (sameSkel_commit u _ _ _) rfl
  | takeNothing _ _ => exact h
  | chunk _ hr =>
      exact hsame (hgrow (restoreAll_grow _ (hcon _) hr))
        (sameSkel_commit _ _ _ _) rfl
  | merge _ _ _ => exact hsame h (sameSkel_commit w _ _ _) rfl
  | tohash _ hr _ =>
      exact hsame (hgrow (restoreAll_grow _ (hcon _) hr))
        (sameSkel_setLocal _ _ _) rfl
  | sync _ => exact hset
  | fullSync _ hu =>
      exact h.syncs hs (fullSync_syncs visits_all _ (hcon _) trivial hu).1
  | join _ hu =>
      exact h.syncs hs (joinSync_syncs visits_all (hcon _) trivial
        (fun _ _ => trivial) hu)

theorem Reachable.built (h : Reachable E w) : Built w :=
  (h.induct (P := fun w => Skel w ∧ Built w)
    ⟨skel_init, fun _ _ hz => by cases hz⟩
    fun _ _ _ hp hstep => ⟨step_skel hp.1 hstep,
      step_built hp.1 hp.2 hstep⟩).2

/-- The objects that a thread holds while it runs PHP code are
constructed. -/
theorem Built.held (h : Built w) (hi : w.frame t = .idle) {l : Addr}
    (hl : Held w t (.object l)) : ∃ s, w.tsOf l = some s := by
  obtain ⟨z, hz, ho⟩ := hl
  cases hts : z.tsObj with
  | some s =>
      refine ⟨s, ?_⟩
      exact (tsOf_of_get hz).trans hts
  | none =>
      obtain ⟨scope, defaults, hfr⟩ := h l z hz hts
      rw [ho, hi] at hfr
      cases hfr

-- ========================================================= where to go next

/-- The thread's connection to `s` is in sync and has a connection to `s'`
cached under an entry that stores an object. -/
def HasCached (w : World) (t : ThreadId) (s : TsAddr) (k : Key)
    (s' : TsAddr) : Prop :=
  (∃ a b, w.entry s k = some (.object a b))
    ∧ ∃ c z, w.mem.get c = some z ∧ z.owner = t ∧ z.tsObj = some s
      ∧ z.loc.modcount = w.modcountOf s ∧ Caches w z.loc k s'

/-- Thread `t` can connect to the object that the entry of `s` under `k`
stores. -/
def Connects (E : Engine) (w : World) (t : ThreadId) (s : TsAddr) (k : Key) :
    Prop :=
  ∀ a b, w.entry s k = some (.object a b) → w.connectable E t a = true

/-- Where the entry of `s` under `k` leads thread `t`. -/
def Goes (E : Engine) (w : World) (t : ThreadId) (s : TsAddr) (k : Key)
    (s' : TsAddr) : Prop :=
  (Follows w t s k s' ∧ Connects E w t s k) ∨ HasCached w t s k s'

/-- The thread's connection to `s` has an object of `s'` in its gc queue. -/
def Queued (w : World) (t : ThreadId) (s s' : TsAddr) : Prop :=
  ∃ c z l, w.mem.get c = some z ∧ z.owner = t ∧ z.tsObj = some s
    ∧ l ∈ z.gc ∧ w.tsOf l = some s'

/-- A full sync of `s` goes on to `s'`. -/
def Leads (E : Engine) (w : World) (t : ThreadId) (s s' : TsAddr) : Prop :=
  (∃ k, Goes E w t s k s') ∨ Queued w t s s'

theorem HasCached.syncs {own : ThreadId → Prop} {s s' : TsAddr} {k : Key}
    (hs : Skel w) (h : HasCached w t s k s') (hsy : Syncs E t own w w') :
    HasCached w' t s k s' := by
  obtain ⟨⟨a, b, he⟩, c, z, hz, ho, hts, hm, o, hco, hos⟩ := h
  obtain ⟨l, hl, hlm, hk⟩ := hsy.keeps hs c z s hz hts hm
  have hc := hs.connecting t
  refine ⟨⟨a, b, ?_⟩, c, _, hl, ho, hts, hlm, o, hk k _ hco,
    (hsy.extends hc).tsOf hos⟩
  rw [(entry_of_props (hsy.props hc) s k).1]
  exact he

/-- What a thread can connect to is not changed by a sync. -/
theorem Syncs.connectable {own : ThreadId → Prop} (h : Syncs E t own w w') :
    Skel w → ∀ {a : Addr} {s : TsAddr}, w.tsOf a = some s →
    w'.connectable E t a = w.connectable E t a := by
  induction h with
  | refl => exact fun _ _ _ _ => rfl
  | grow hu hg ih =>
      intro hs a s ha
      exact (hg.connectable ((hu.extends (hs.connecting t)).tsOf ha)).trans
        (ih hs ha)
  | sync _ _ _ ih =>
      intro hs a s ha
      exact (connectable_modify E _ _ _ t a).trans (ih hs ha)
  | @put w u u₁ u₂ c x k st r hu hx ho hst hcache hn hr hne hu₂ hz ih ih' =>
      intro hs a s ha
      have hau := (hu.extends (hs.connecting t)).tsOf ha
      obtain ⟨hs₁, hg, -⟩ := conn_restored (hs.syncs hu) hx hr hu₂ hz
      exact (connectable_modify E u₂ c _ t a).trans
        ((ih' hs₁ (hg.extends.tsOf hau)).trans
          ((hg.connectable hau).trans (ih hs ha)))

theorem Connects.syncs {own : ThreadId → Prop} {s s' : TsAddr} {k : Key}
    (hs : Skel w) (hn : Names w s k s') (h : Connects E w t s k)
    (hsy : Syncs E t own w w') : Connects E w' t s k := by
  intro a b he
  rw [(entry_of_props (hsy.props (hs.connecting t)) s k).1] at he
  obtain ⟨a', b', he', ha⟩ := hn
  rw [he] at he'
  injection he' with he'
  injection he' with haa
  rw [← haa] at ha
  rw [hsy.connectable hs ha]
  exact h a b he

theorem Goes.syncs {own : ThreadId → Prop} {s s' : TsAddr} {k : Key}
    (hs : Skel w) (h : Goes E w t s k s') (hsy : Syncs E t own w w') :
    Goes E w' t s k s' :=
  h.imp (fun h => ⟨h.1.syncs hs hsy, h.2.syncs hs h.1.names hsy⟩)
    (·.syncs hs hsy)

/-- What is cached under the entry of a connection in sync is where it
leads. -/
theorem Goes.cached {s s' : TsAddr} {k : Key} (hs : Skel w)
    (h : Goes E w t s k s') {c : Addr} {z : ZObj}
    (hz : w.mem.get c = some z) (ho : z.owner = t) (hts : z.tsObj = some s)
    (hm : z.loc.modcount = w.modcountOf s) {v : Zval}
    (hv : z.loc.cached k = some v) : Caches w z.loc k s' := by
  rcases h with ⟨h, -⟩ | ⟨-, c', z', hz', ho', hts', -, hc'⟩
  · exact h.clean c z hz ho hts hm v hv
  · have hcc := hs.only hz ho hts c' z' hz' ho' hts'
    rw [hcc, hz] at hz'
    rw [Option.some.inj hz']
    exact hc'

/-- Where nothing is cached, the entry names a live object that the thread
can connect to. -/
theorem Goes.uncached {s s' : TsAddr} {k : Key} (hs : Skel w)
    (h : Goes E w t s k s') {c : Addr} {z : ZObj}
    (hz : w.mem.get c = some z) (ho : z.owner = t) (hts : z.tsObj = some s)
    (hn : z.loc.cached k = none) :
    Names w s k s' ∧ Connects E w t s k := by
  rcases h with ⟨h, hcan⟩ | ⟨-, c', z', hz', ho', hts', -, o, hco, -⟩
  · exact ⟨h.names, hcan⟩
  · have hcc := hs.only hz ho hts c' z' hz' ho' hts'
    rw [hcc, hz] at hz'
    rw [← Option.some.inj hz', hn] at hco
    cases hco

-- ================================================================ one turn

/-- The memory that restoring reads is there: the string, or the closure
and what it refers to. -/
def Sturdy (w : World) (t : ThreadId) : Storage → Prop
  | .stringPtr _ p _ => (w.strings.get p).isSome = true
  | .closure p _ _ => ∃ cl, w.closures[p]? = some cl ∧ cl.live = true
      ∧ (∀ a, cl.thisObj = some a → w.unbuilt t a = false)
      ∧ (cl.fake = true ∨ cl.uses.any (w.useFaults t) = false)
  | _ => True

theorem Sturdy.fate {st : Storage} (h : Sturdy w t st)
    (hobj : storageIsPmmpthreadObj st = false)
    (hcache : storageIsCacheable (some st) = true) :
    w.restoreFate E t st ≠ .fault := by
  cases st with
  | object a b => cases hobj
  | stringPtr owner p b =>
      change (w.strings.get p).isSome = true at h
      simp only [restoreFate, h, if_true]
      exact Fate.noConfusion
  | closure p thisObj owner =>
      obtain ⟨cl, hcl, hlive, hthis, huses⟩ := h
      have hbound : w.boundFate E t cl ≠ .fault := by
        unfold boundFate
        rcases huses with hfake | huses
        · rw [if_pos hfake]
          split <;> exact Fate.noConfusion
        · rw [huses]
          split
          · split <;> exact Fate.noConfusion
          · exact Fate.noConfusion
      change w.closureFate E t p ≠ .fault
      unfold closureFate
      rw [hcl]
      simp only [hlive, if_true]
      cases hth : cl.thisObj with
      | none => exact hbound
      | some a =>
          have hready := hthis a hth
          simp only [thisFate, hready, Bool.false_eq_true, if_false]
          cases (w.mem.get a).isNone with
          | true => exact Fate.noConfusion
          | false => exact hbound
  | enumCase cls name => cases hcache
  | _ => exact Fate.noConfusion

theorem Syncs.unbuilt {own : ThreadId → Prop} (h : Syncs E t own w w')
    (hs : Skel w) (a : Addr) : w'.unbuilt t a = w.unbuilt t a := by
  induction h with
  | refl => rfl
  | grow _ hg ih => rw [hg.unbuilt, ih hs]
  | sync _ _ _ ih => rw [unbuilt_setLocal, ih hs]
  | @put w u u₁ u₂ c x k st r hu hx ho hst hcache hn hr hne hu₂ hz ih ih' =>
      have hsu := hs.syncs hu
      obtain ⟨hs₁, hg, -⟩ := conn_restored hsu hx hr hu₂ hz
      exact (unbuilt_modify u₂ c _ t a).trans
        ((ih' hs₁).trans ((hg.unbuilt a).trans (ih hs)))

theorem Syncs.useFaults {own : ThreadId → Prop} (h : Syncs E t own w w')
    (hs : Skel w) : w'.useFaults t = w.useFaults t :=
  useFaults_congr (h.unbuilt hs)

theorem Sturdy.syncs {own : ThreadId → Prop} {st : Storage} (hs : Skel w)
    (h : Sturdy w t st) (hsy : Syncs E t own w w') : Sturdy w' t st := by
  have hext := hsy.extends (hs.connecting t)
  cases st with
  | stringPtr owner p b =>
      obtain ⟨s, hp⟩ := Option.isSome_iff_exists.mp h
      exact Option.isSome_iff_exists.mpr ⟨s, hext.strings hp⟩
  | closure p thisObj owner =>
      obtain ⟨cl, hcl, hlive, hthis, huses⟩ := h
      obtain ⟨hlt, heq⟩ := List.getElem?_eq_some_iff.mp hcl
      refine ⟨cl, ?_, hlive, fun a ha => ?_, ?_⟩
      · rw [List.prefix_iff_getElem?.mp hext.closures p hlt, heq]
      · rw [hsy.unbuilt hs]
        exact hthis a ha
      · rw [hsy.useFaults hs]
        exact huses
  | _ => trivial

/-- The thread's connection to `s` has a closure cached, and goes on to
have it: it is in sync, or it is the very closure that is stored. -/
def KeepsClosure (w : World) (t : ThreadId) (s : TsAddr) (k : Key)
    (st : Storage) : Prop :=
  ∃ p thisObj owner, st = .closure p thisObj owner
    ∧ ∃ c z v, w.mem.get c = some z ∧ z.owner = t ∧ z.tsObj = some s
      ∧ z.loc.cached k = some v
      ∧ (z.loc.modcount = w.modcountOf s ∨ v = .closure p)

/-- One local table changes. -/
theorem KeepsClosure.modify {s : TsAddr} {k : Key} {st : Storage}
    (h : KeepsClosure w t s k st) {c : Addr} {x : Conn}
    (hx : w.conn c = some x) {f : ZObj → Local}
    (hf : ∀ v p thisObj owner, x.s = s → st = .closure p thisObj owner →
      x.z.loc.cached k = some v →
      x.z.loc.modcount = x.o.props.modcount ∨ v = .closure p →
      (f x.z).cached k = some v
        ∧ ((f x.z).modcount = x.o.props.modcount ∨ v = .closure p)) :
    KeepsClosure { w with mem := w.mem.modify c fun z =>
      { z with loc := f z } } t s k st := by
  obtain ⟨p, thisObj, owner, hst, c', z, v, hz, ho, hts, hv, hin⟩ := h
  obtain ⟨hzx, htsx, hox⟩ := conn_eq_some.mp hx
  refine ⟨p, thisObj, owner, hst, c', ?_⟩
  by_cases hc : c' = c
  · rw [hc, hzx] at hz
    rw [← Option.some.inj hz] at ho hts hv hin
    have hss : x.s = s := Option.some.inj (htsx.symm.trans hts)
    rw [← hss, modcountOf_eq hox] at hin
    obtain ⟨hfv, hfin⟩ := hf v p thisObj owner hss hst hv hin
    refine ⟨{ x.z with loc := f x.z }, v, ?_, ho, hts, hfv, ?_⟩
    · show (w.mem.modify c _).get c' = _
      rw [hc, Heap.get_modify_self, hzx]
      rfl
    · show _ = w.modcountOf s ∨ _
      rw [← hss, modcountOf_eq hox]
      exact hfin
  · refine ⟨z, v, ?_, ho, hts, hv, hin⟩
    show (w.mem.modify c _).get c' = _
    rw [Heap.get_modify_ne _ _ hc]
    exact hz

theorem KeepsClosure.grow {s : TsAddr} {k : Key} {st : Storage}
    (h : KeepsClosure w t s k st) (hg : Grow E t w w') :
    KeepsClosure w' t s k st := by
  obtain ⟨p, thisObj, owner, hst, c, z, v, hz, ho, hts, hv, hin⟩ := h
  refine ⟨p, thisObj, owner, hst, c, z, v, hg.mem hz, ho, hts, hv, ?_⟩
  rw [hg.modcountOf]
  exact hin

theorem KeepsClosure.syncs {own : ThreadId → Prop} {s : TsAddr} {k : Key}
    {st : Storage} (hsy : Syncs E t own w w') :
    Skel w → w.entry s k = some st → KeepsClosure w t s k st →
      KeepsClosure w' t s k st := by
  induction hsy with
  | refl => exact fun _ _ h => h
  | grow _ hg ih => exact fun hs he h => (ih hs he h).grow (.single hg)
  | @sync w u c x hu hx ho ih =>
      intro hs he h
      have heu := (entry_of_props (hu.props (hs.connecting t)) s k).1.trans he
      refine (ih hs he h).modify hx (f := fun _ => _)
        fun v p thisObj owner hss hst hv hin => ?_
      rw [Local.cached_initProps, Local.modcount_initProps, cached_syncLocal]
      refine ⟨?_, Or.inl (Local.modcount_sync _ _ _ _)⟩
      split
      case isTrue => exact hv
      case isFalse hm =>
        rw [← hss, entry_eq (conn_eq_some.mp hx).2.2, hst] at heu
        rw [heu]
        refine Option.filter_eq_some_iff.mpr ⟨hv, ?_⟩
        rcases hin with hin | hin
        · exact absurd hin hm
        · rw [hin]
          exact beq_self_eq_true p
  | @put w u u₁ u₂ c x k' st' r hu hx ho hst hcache hn hr hne hu₂ hz ih ih' =>
      intro hs he h
      have hsu := hs.syncs hu
      obtain ⟨hs₁, hg, n, hx₂⟩ := conn_restored hsu hx hr hu₂ hz
      have heu := (entry_of_props (hu.props (hs.connecting t)) s k).1.trans he
      have he₁ := (entry_of_props hg.props s k).1.trans heu
      refine (ih' hs₁ he₁ ((ih hs he h).grow hg)).modify hx₂
        (f := fun z => z.loc.put z.declared k' r.zval)
        fun v p thisObj owner hss hst hv hin => ⟨?_, hin⟩
      change x.z.loc.cached k = some v at hv
      change (x.z.loc.put x.z.declared k' r.zval).cached k = some v
      rw [Local.cached_put]
      split
      case isTrue hk =>
        rw [hk, hn] at hv
        cases hv
      case isFalse => exact hv

/-- The turn of an entry that does not store an object goes well. -/
def Fine (w : World) (t : ThreadId) (s : TsAddr) (k : Key) (st : Storage) :
    Prop :=
  Sturdy w t st ∨ KeepsClosure w t s k st

theorem Fine.syncs {own : ThreadId → Prop} {s : TsAddr} {k : Key}
    {st : Storage} (hs : Skel w) (he : w.entry s k = some st)
    (h : Fine w t s k st) (hsy : Syncs E t own w w') : Fine w' t s k st :=
  h.imp (·.syncs hs hsy) (KeepsClosure.syncs hsy hs he)

theorem fullSyncEntry_object_ends {recurse : World → Addr → Option World}
    {c : Addr} {x : Conn} {k : Key} {a : Addr} {b : Nat} {s' : TsAddr}
    (hs : Skel w) (hown : OwnOf w t) (hi : w.frame t = .idle)
    (hx : w.conn c = some x) (ho : x.z.owner = t)
    (hm : x.z.loc.modcount = x.o.props.modcount)
    (hst : x.o.props.hash.find k = some (.object a b))
    (hgo : Goes E w t x.s k s')
    (hrec : ∀ {u l}, Syncs E t (· = t) w u → Held u t (.object l) →
      u.tsOf l = some s' → ∃ u', recurse u l = some u') :
    ∃ w', fullSyncEntry E t recurse c w (k, .object a b) = some w' := by
  obtain ⟨hz, hts, hox⟩ := conn_eq_some.mp hx
  cases hc : x.z.loc.cached k with
  | some v =>
      obtain ⟨o, hco, hos⟩ := hgo.cached hs hz ho hts
        (by rw [modcountOf_eq hox]; exact hm) hc
      obtain ⟨u', hu'⟩ := hrec (.refl w)
        (hown.cached hz ho (by rw [hi]; exact List.not_mem_nil) hco).1 hos
      refine ⟨u', ?_⟩
      unfold fullSyncEntry
      rw [hz, Option.bind_some, hco]
      exact hu'
  | none =>
      obtain ⟨hnames, hcan⟩ := hgo.uncached hs hz ho hts hc
      obtain ⟨a', b', hf, ha⟩ := hnames.storage hox
      rw [hst] at hf
      injection hf with hf
      injection hf with haa hbb
      rw [← haa] at ha
      obtain ⟨l, u, hr⟩ := restoreZval_connects (b := b) hs ha
        (hcan a b ((entry_eq hox k).trans hst))
      have hls := restoreZval_names hs ha hr
      have hg := grow_of_restored hr (hs.connecting t)
      have hheld : Held u t (.object l) :=
        restoreZval_held hs (fun _ _ h => by cases h) hr
      obtain ⟨u', hu'⟩ := hrec (.of_grow hg) hheld hls
      rw [fullSyncEntry_restored (by rw [hz]; exact hc) hr, hu']
      exact ⟨_, rfl⟩

theorem fullSyncEntry_other_ends {recurse : World → Addr → Option World}
    {c : Addr} {x : Conn} {k : Key} {st : Storage} (hs : Skel w)
    (hx : w.conn c = some x) (ho : x.z.owner = t)
    (hobj : storageIsPmmpthreadObj st = false) (hmem : Fine w t x.s k st) :
    ∃ w', fullSyncEntry E t recurse c w (k, st) = some w' := by
  obtain ⟨hz, hts, -⟩ := conn_eq_some.mp hx
  unfold fullSyncEntry
  rw [hz, Option.bind_some]
  cases hc : x.z.loc.cached k with
  | some v =>
      simp only [hobj, Bool.false_eq_true, if_false]
      exact ⟨w, rfl⟩
  | none =>
      have hmem : Sturdy w t st := by
        rcases hmem with hmem | ⟨-, -, -, -, c', z, v, hz', ho', hts', hv, -⟩
        · exact hmem
        · have hcc := hs.only hz ho hts c' z hz' ho' hts'
          rw [hcc, hz] at hz'
          rw [← Option.some.inj hz', hc] at hv
          cases hv
      simp only [hobj, Bool.false_eq_true, if_false]
      split
      case isFalse => exact ⟨w, rfl⟩
      case isTrue hcache =>
        have hfate := restoreZval_fate (E := E) (t := t) hs st
        rcases hr : w.restoreZval E t st with ⟨r, u⟩
        rw [hr] at hfate
        cases r with
        | fault => exact absurd hfate.symm (hmem.fate hobj hcache)
        | value v => exact ⟨_, rfl⟩
        | failed => exact ⟨_, rfl⟩

-- ================================================================= the end

/-- The local table of a connection after the sync that a full sync of it
begins with. -/
def begun (w : World) (c : Addr) (x : Conn) : World :=
  w.setLocal c ((w.syncLocal x.z.owner x.o.props x.z.loc).initProps
    x.z.declared)

/-- A full sync of `c` that is not on the stack. -/
theorem fullSync_of_conn {fuel : Nat} {protect : List Addr} {c : Addr}
    {x : Conn} (hcp : c ∉ protect) (hx : w.conn c = some x) :
    fullSync E t (fuel + 1) protect w c
      = (x.o.props.hash.entries.foldlM
          (fullSyncEntry E t (fullSync E t fuel (c :: protect)) c)
          (w.begun c x)).bind
        fun w' => x.z.gc.foldlM (fullSync E t fuel (c :: protect)) w' := by
  unfold fullSync
  rw [if_neg hcp, hx]
  rfl

/-- The objects that the thread's connections have in their gc queues are
constructed. -/
def QueuesHold (w : World) (t : ThreadId) : Prop :=
  ∀ c z l, w.mem.get c = some z → z.owner = t → l ∈ z.gc →
    (w.tsOf l).isSome = true

theorem OwnOf.queuesHold (h : OwnOf w t) (hb : Built w)
    (hi : w.frame t = .idle) : QueuesHold w t := by
  intro c z l hz ho hl
  have hheld := (h.gc hz ho (by rw [hi]; exact List.not_mem_nil) hl).1
  obtain ⟨s, hls⟩ := hb.held hi hheld
  rw [hls]
  rfl

section Ends

variable (hs : Skel w₀) (hown : OwnOf w₀ t) (hi : w₀.frame t = .idle)
  (hgc : QueuesHold w₀ t)

include hs

theorem stored_of_entries {w : World} {c : Addr} {x : Conn}
    (hw : Syncs E t (· = t) w₀ w) (hx : w.conn c = some x)
    {e : Key × Storage} (he : e ∈ x.o.props.hash.entries) :
    w₀.entry x.s e.1 = some e.2 := by
  rw [← (entry_of_props (hw.props (hs.connecting t)) x.s e.1).1,
    entry_eq (conn_eq_some.mp hx).2.2]
  exact HashTable.find_eq_some_iff.mpr he

include hgc in
/-- What is in the gc queue of a connection is queued from the start. -/
theorem queued_of_gc {w : World} {c l : Addr} {x : Conn}
    (hw : Syncs E t (· = t) w₀ w) (hx : w.conn c = some x)
    (ho : x.z.owner = t) (hl : l ∈ x.z.gc) :
    ∃ s', Queued w₀ t x.s s' ∧ w.tsOf l = some s' := by
  obtain ⟨hz, hts, -⟩ := conn_eq_some.mp hx
  rcases hw.oldOrNew hs c x.z hz with ⟨l₀, hz₀⟩ | ⟨-, hnew, -⟩
  · obtain ⟨s', hs'⟩ := Option.isSome_iff_exists.mp (hgc c _ l hz₀ ho hl)
    exact ⟨s', ⟨c, _, l, hz₀, ho, hts, hl, hs'⟩,
      (hw.extends (hs.connecting t)).tsOf hs'⟩
  · rw [hnew] at hl
    cases hl

include hown hi

theorem own_syncs {u : World} (hu : Syncs E t (· = t) w₀ u) :
    Skel u ∧ OwnOf u t ∧ u.frame t = .idle :=
  visits_own.syncs ⟨hs, hown, hi⟩ hu

/-- In the loop the connection is in sync. -/
theorem conn_begun {w u : World} {c : Addr} {x : Conn}
    (hw : Syncs E t (· = t) w₀ w) (hx : w.conn c = some x)
    (ho : x.z.owner = t) (hu : Syncs E t (· = t) (w.begun c x) u) :
    ∃ l n, u.conn c
        = some ⟨{ x.z with loc := l }, x.s, { x.o with refcount := n }⟩
      ∧ l.modcount = x.o.props.modcount := by
  have h0 : Syncs E t (· = t) w (w.begun c x) := .sync (.refl w) hx ho
  have hsw := (own_syncs hs hown hi hw).1
  have hret := hu.retains (own_syncs hs hown hi (hw.trans h0)).1
    (fun _ _ _ h => h)
  exact inSync_of_retains hx hret ((h0.trans hu).extends (hsw.connecting t))

include hgc

/-- From an object of a set that is closed under `Leads` and in which every
entry has somewhere to go, a full sync ends. `P` are the objects on the
stack. -/
theorem fullSync_ends {S : Set TsAddr}
    (hclosed : ∀ s ∈ S, ∀ s', Leads E w₀ t s s' → s' ∈ S)
    (hgo : ∀ s ∈ S, ∀ k a b, w₀.entry s k = some (.object a b) →
      ∃ s', Goes E w₀ t s k s')
    (hmem : ∀ s ∈ S, ∀ k st, w₀.entry s k = some st →
      storageIsPmmpthreadObj st = false → Fine w₀ t s k st) (fuel : Nat) :
    ∀ {protect : List Addr} {P : List TsAddr} {w : World} {c : Addr}
      {s : TsAddr}, Syncs E t (· = t) w₀ w → Held w t (.object c) →
      w.tsOf c = some s → s ∈ S →
      (∀ s' ∈ P, ∃ c' ∈ protect, Held w t (.object c')
        ∧ w.tsOf c' = some s') →
      P.Nodup → P ⊆ w₀.shared.cells.keys →
      w₀.shared.cells.keys.length < fuel + P.length →
      ∃ w', fullSync E t fuel protect w c = some w' := by
  induction fuel with
  | zero =>
      intro protect P w c s _ _ _ _ _ hnd hsub hlt
      have hle := (List.subperm_of_subset hnd hsub).length_le
      omega
  | succ fuel ih =>
      intro protect P w c s hw hheld hts hsS hprot hnd hsub hlt
      obtain ⟨hsw, hownw, hiw⟩ := own_syncs hs hown hi hw
      by_cases hcp : c ∈ protect
      · refine ⟨w, ?_⟩
        unfold fullSync
        rw [if_pos hcp]
      obtain ⟨z, hz, ho⟩ := hheld
      have hzs : z.tsObj = some s :=
        (tsOf_of_get hz).symm.trans hts
      -- a thread has one connection to an object
      have hsP : s ∉ P := by
        intro hsP
        obtain ⟨c', hc', ⟨z', hz', ho'⟩, hts'⟩ := hprot s hsP
        have hzs' : z'.tsObj = some s :=
          (tsOf_of_get hz').symm.trans hts'
        have hcc : c' = c := hsw.only hz ho hzs c' z' hz' ho' hzs'
        exact hcp (hcc ▸ hc')
      obtain ⟨x, hx⟩ := hsw.conn hz hzs
      obtain ⟨hzx, htsx, hox⟩ := conn_eq_some.mp hx
      have hxz : x.z = z := Option.some.inj (hzx.symm.trans hz)
      have hxs : x.s = s := by
        rw [hxz, hzs] at htsx
        exact (Option.some.inj htsx).symm
      have hxo : x.z.owner = t := hxz ▸ ho
      have h0 : Syncs E t (· = t) w (w.begun c x) := .sync (.refl w) hx hxo
      -- what the recursion needs further down
      have hrec : ∀ {u : World} {l : Addr} {s' : TsAddr},
          Syncs E t (· = t) w u → Held u t (.object l) →
          u.tsOf l = some s' → s' ∈ S →
          ∃ u', fullSync E t fuel (c :: protect) u l = some u' := by
        intro u l s' hwu hl hls hs'
        have hext := hwu.extends (hsw.connecting t)
        have hkey : s ∈ w₀.shared.cells.keys := by
          have hsome : (w₀.shared.get s).isSome = true := by
            have hp := hw.props (hs.connecting t) s
            rw [← hxs, hox] at hp
            rw [← hxs]
            cases h : w₀.shared.get x.s with
            | none =>
                rw [h] at hp
                cases hp
            | some o => rfl
          exact AList.mem_keys.mpr (AList.lookup_isSome.mp hsome)
        refine ih (P := s :: P) (hw.trans hwu) hl hls hs' ?_
          (List.nodup_cons.mpr ⟨hsP, hnd⟩) ?_ ?_
        · intro s'' hs''
          rcases List.mem_cons.mp hs'' with rfl | hs''
          · exact ⟨c, List.mem_cons_self,
              Held.extends hext ⟨z, hz, ho⟩, hext.tsOf hts⟩
          · obtain ⟨c', hc', hheld', hts'⟩ := hprot s'' hs''
            exact ⟨c', List.mem_cons_of_mem _ hc',
              Held.extends hext hheld', hext.tsOf hts'⟩
        · exact List.cons_subset.mpr ⟨hkey, hsub⟩
        · rw [List.length_cons]
          omega
      -- the loop over the entries
      obtain ⟨v, hv, hwv⟩ := foldlM_ends
        (P := fun u => Syncs E t (· = t) (w.begun c x) u)
        (f := fullSyncEntry E t (fullSync E t fuel (c :: protect)) c)
        x.o.props.hash.entries
        (fun {u e} he hu => by
          obtain ⟨k, st⟩ := e
          have hwu := h0.trans hu
          have h0u := hw.trans hwu
          obtain ⟨hsu, hownu, hiu⟩ := own_syncs hs hown hi h0u
          have hstored := stored_of_entries hs hw hx he
          obtain ⟨l, n, hxu, hm⟩ := conn_begun hs hown hi hw hx hxo hu
          have hfind := HashTable.find_eq_some_iff.mpr he
          have hends : ∃ u', fullSyncEntry E t
              (fullSync E t fuel (c :: protect)) c u (k, st) = some u' := by
            cases hobj : storageIsPmmpthreadObj st with
            | false =>
                refine fullSyncEntry_other_ends hsu hxu hxo hobj ?_
                exact (hmem x.s (hxs ▸ hsS) k st hstored hobj).syncs hs
                  hstored h0u
            | true =>
                cases st with
                | object a b =>
                    obtain ⟨s', hs'⟩ := hgo x.s (hxs ▸ hsS) k a b hstored
                    refine fullSyncEntry_object_ends hsu hownu hiu hxu hxo hm
                      hfind (hs'.syncs hs h0u) fun huv hl hls => ?_
                    exact hrec (hwu.trans huv) hl hls
                      (hclosed x.s (hxs ▸ hsS) s' (Or.inl ⟨k, hs'⟩))
                | _ => cases hobj
          obtain ⟨u', hu'⟩ := hends
          have hheldu : Held u t (.object c) :=
            Held.extends (hwu.extends (hsw.connecting t)) ⟨z, hz, ho⟩
          have hsy := (fullSyncEntry_syncs visits_own ⟨hsu, hownu, hiu⟩ hheldu
            hcp (fun hI hV hr => fullSync_syncs visits_own fuel hI hV hr) hxu
            hfind hu').1
          exact ⟨u', hu', hu.trans hsy⟩)
        (.refl (w.begun c x))
      -- the loop over the gc queue
      obtain ⟨w', hw', -⟩ := foldlM_ends
        (P := fun u => Syncs E t (· = t) w u)
        (f := fullSync E t fuel (c :: protect)) x.z.gc
        (fun {u l} hl hu => by
          have h0u := hw.trans hu
          obtain ⟨s', hq, hls⟩ := queued_of_gc hs hgc hw hx hxo hl
          have hext := hu.extends (hsw.connecting t)
          have hlheld := Held.extends hext
            (visits_own.gc (E := E) ⟨hsw, hownw, hiw⟩ ⟨z, hz, ho⟩ hzx hl)
          obtain ⟨u', hu'⟩ := hrec hu hlheld (hext.tsOf hls)
            (hclosed x.s (hxs ▸ hsS) s' (Or.inr hq))
          exact ⟨u', hu', hu.trans (fullSync_syncs visits_own fuel
            (own_syncs hs hown hi h0u) hlheld hu').1⟩)
        (h0.trans hwv)
      refine ⟨w', ?_⟩
      rw [fullSync_of_conn hcp hx, hv]
      exact hw'

end Ends

-- =========================================================== what it visits

/-- Nothing is lost on the way from `w` to `w'`. -/
structure Later (w w' : World) : Prop where
  ext : Extends w w'
  keeps : KeepsInSync w w'

theorem Later.trans {u : World} (h : Later w u) (h' : Later u w') :
    Later w w' :=
  ⟨h.ext.trans h'.ext, h.keeps.trans h'.keeps⟩

theorem Syncs.later {own : ThreadId → Prop} (h : Syncs E t own w w')
    (hs : Skel w) : Later w w' :=
  ⟨h.extends (hs.connecting t), h.keeps hs⟩

/-- The full sync came to `s`: it synced a connection of the thread and
each entry had its turn. -/
def Visited (E : Engine) (t : ThreadId) (w₀ w' : World) (s : TsAddr) :
    Prop :=
  ∃ v c x fuel protect, Syncs E t (· = t) w₀ v ∧ v.conn c = some x
    ∧ x.z.owner = t ∧ x.s = s ∧ Later (v.begun c x) w'
    ∧ ∀ e ∈ x.o.props.hash.entries, ∃ u u',
      Syncs E t (· = t) (v.begun c x) u
      ∧ fullSyncEntry E t (fullSync E t fuel (c :: protect)) c u e = some u'
      ∧ Later u' w'

theorem Visited.later {s : TsAddr} {u : World} (h : Visited E t w₀ u s)
    (hl : Later u w') : Visited E t w₀ w' s := by
  obtain ⟨v, c, x, fuel, protect, hv, hx, ho, hxs, hend, hturns⟩ := h
  refine ⟨v, c, x, fuel, protect, hv, hx, ho, hxs, hend.trans hl,
    fun e he => ?_⟩
  obtain ⟨u₁, u₂, hu₁, hturn, hu₂⟩ := hturns e he
  exact ⟨u₁, u₂, hu₁, hturn, hu₂.trans hl⟩

/-- The turn of an entry that leads to `s'` goes on with a connection to
it. -/
theorem fullSyncEntry_goes {recurse : World → Addr → Option World}
    {c : Addr} {x : Conn} {k : Key} {st : Storage} {s' : TsAddr}
    (hs : Skel w) (hown : OwnOf w t) (hi : w.frame t = .idle)
    (hx : w.conn c = some x) (ho : x.z.owner = t)
    (hm : x.z.loc.modcount = x.o.props.modcount)
    (hst : x.o.props.hash.find k = some st) (hgo : Goes E w t x.s k s')
    (hrec : ∀ {u l u'}, Syncs E t (· = t) w u → Held u t (.object l) →
      recurse u l = some u' → Syncs E t (· = t) u u' ∧ Leaves [c] u u')
    (h : fullSyncEntry E t recurse c w (k, st) = some w') :
    ∃ u l u', Syncs E t (· = t) w u ∧ Held u t (.object l)
      ∧ u.tsOf l = some s' ∧ recurse u l = some u' ∧ Later u' w' := by
  obtain ⟨hz, hts, hox⟩ := conn_eq_some.mp hx
  have hstored : ∃ a b, st = .object a b := by
    have hentry : ∃ a b, w.entry x.s k = some (.object a b) := by
      rcases hgo with ⟨hf, -⟩ | hc
      · obtain ⟨a, b, he, -⟩ := hf.names
        exact ⟨a, b, he⟩
      · exact hc.1
    obtain ⟨a, b, he⟩ := hentry
    rw [entry_eq hox, hst] at he
    exact ⟨a, b, Option.some.inj he⟩
  obtain ⟨a, b, rfl⟩ := hstored
  cases hc : x.z.loc.cached k with
  | some v =>
      obtain ⟨o, hco, hos⟩ := hgo.cached hs hz ho hts
        (by rw [modcountOf_eq hox]; exact hm) hc
      unfold fullSyncEntry at h
      rw [hz, Option.bind_some, hco] at h
      have hheld :=
        (hown.cached hz ho (by rw [hi]; exact List.not_mem_nil) hco).1
      exact ⟨w, o, w', .refl w, hheld, hos, h, .refl w', .refl w'⟩
  | none =>
      obtain ⟨hnames, hcan⟩ := hgo.uncached hs hz ho hts hc
      obtain ⟨a', b', hf, ha⟩ := hnames.storage hox
      rw [hst] at hf
      injection hf with hf
      injection hf with haa hbb
      rw [← haa] at ha
      obtain ⟨l, u, hr⟩ := restoreZval_connects (b := b) hs ha
        (hcan a b ((entry_eq hox k).trans hst))
      have hls := restoreZval_names hs ha hr
      have hg := grow_of_restored hr (hs.connecting t)
      have hheld : Held u t (.object l) :=
        restoreZval_held hs (fun _ _ h => by cases h) hr
      rw [fullSyncEntry_restored (by rw [hz]; exact hc) hr] at h
      obtain ⟨u', hu', h⟩ := Option.map_eq_some_iff.mp h
      obtain ⟨h1, h2⟩ := hrec (.of_grow hg) hheld hu'
      have hz' := h2 c List.mem_cons_self _ (hg.mem hz)
      obtain ⟨-, -, n, hx'⟩ := conn_restored hs hx hr h1 hz'
      refine ⟨u, l, u', .of_grow hg, hheld, hls, hu', ?_⟩
      rw [← h]
      refine ⟨extends_modify_loc u' c _, keeps_modify hx'
        (f := fun z => z.loc.put z.declared k (.object l))
        fun hm' => ⟨hm', fun k' v hv => ?_⟩⟩
      change (x.z.loc.put x.z.declared k (.object l)).cached k' = some v
      rw [Local.cached_put]
      split
      case isTrue hk =>
        change x.z.loc.cached k' = some v at hv
        rw [hk, hc] at hv
        cases hv
      case isFalse => exact hv

section Visits

variable (hs : Skel w₀) (hown : OwnOf w₀ t) (hi : w₀.frame t = .idle)

include hs hown hi

/-- A full sync of `c` comes to whatever a walk does that stays off the
objects on the stack. -/
theorem fullSync_visited (fuel : Nat) :
    ∀ {protect : List Addr} {A : Set TsAddr} {w w' : World} {c : Addr}
      {s p : TsAddr}, Syncs E t (· = t) w₀ w → Held w t (.object c) →
      w.tsOf c = some s → (∀ c' ∈ protect, ∃ s' ∈ A, w.tsOf c' = some s') →
      fullSync E t fuel protect w c = some w' →
      Walk (Leads E w₀ t) A s p → Visited E t w₀ w' p := by
  induction fuel with
  | zero => intro protect A w w' c s p _ _ _ _ h; cases h
  | succ fuel ih =>
      intro protect A w w' c s p hw hheld hts hprot h hwalk
      have hI := own_syncs hs hown hi hw
      have hcon := hI.1.connecting t
      have hcp : c ∉ protect := by
        intro hc
        obtain ⟨s', hs', hts'⟩ := hprot c hc
        rw [hts] at hts'
        exact hwalk.start (Option.some.inj hts' ▸ hs')
      obtain ⟨x, hx, ho, h0, hend, hvisit, hqueue⟩ :=
        fullSync_visits hI hheld hcp h
      obtain ⟨hz, htsx, hox⟩ := conn_eq_some.mp hx
      have hxs : x.s = s :=
        Option.some.inj (htsx.symm.trans ((tsOf_of_get hz).symm.trans hts))
      have hstack : ∀ {u : World}, Syncs E t (· = t) w u →
          ∀ c' ∈ c :: protect, ∃ s' ∈ insert s A, u.tsOf c' = some s' := by
        intro u hu c' hc'
        have hext := hu.extends hcon
        rcases List.mem_cons.mp hc' with hc' | hc'
        · exact ⟨s, Set.mem_insert s A, hc' ▸ hext.tsOf hts⟩
        · obtain ⟨s', hs', hts'⟩ := hprot c' hc'
          exact ⟨s', Set.mem_insert_of_mem s hs', hext.tsOf hts'⟩
      have hlater : ∀ {u u'}, Syncs E t (· = t) w u →
          Syncs E t (· = t) u u' → Later u u' :=
        fun hu huu => huu.later (own_syncs hs hown hi (hw.trans hu)).1
      cases hwalk with
      | here _ =>
          refine ⟨w, c, x, fuel, protect, hw, hx, ho, hxs, hlater h0 hend,
            fun e he => ?_⟩
          obtain ⟨u, u', hu, hfu, huu, hu'⟩ := hvisit e he
          exact ⟨u, u', hu, hfu, hlater ((h0.trans hu).trans huu) hu'⟩
      | @step _ _ q _ _ hpq hwalk =>
          rcases hpq with ⟨k, hgo⟩ | ⟨c', z', l, hz', ho', hts', hl, hls⟩
          · -- through an entry
            have hstored : ∃ st, x.o.props.hash.find k = some st := by
              have hgow := hgo.syncs hs hw
              rw [← hxs] at hgow
              rcases hgow with ⟨hf, -⟩ | hc
              · obtain ⟨a, b, hfind, -⟩ := hf.names.storage hox
                exact ⟨_, hfind⟩
              · obtain ⟨⟨a, b, he⟩, -⟩ := hc
                rw [entry_eq hox] at he
                exact ⟨_, he⟩
            obtain ⟨st, hfind⟩ := hstored
            obtain ⟨u, u', hu, hfu, huu, hu'⟩ :=
              hvisit (k, st) (HashTable.find_eq_some_iff.mp hfind)
            have hwu := hw.trans (h0.trans hu)
            obtain ⟨hsu, hownu, hiu⟩ := own_syncs hs hown hi hwu
            obtain ⟨l, n, hxu, hm⟩ := conn_begun hs hown hi hw hx ho hu
            have hgou : Goes E u t x.s k q := by
              rw [hxs]
              exact hgo.syncs hs hwu
            obtain ⟨v, o, v', hv, hvo, hos, hr, hlast⟩ :=
              fullSyncEntry_goes hsu hownu hiu hxu ho hm hfind hgou
                (fun {v o v'} huv hvo hr => by
                  obtain ⟨h1, h2⟩ := fullSync_syncs visits_own fuel
                    (own_syncs hs hown hi (hwu.trans huv)) hvo hr
                  refine ⟨h1, fun c' hc' => h2 c' ?_⟩
                  rw [List.mem_singleton.mp hc']
                  exact List.mem_cons_self) hfu
            refine (ih (hwu.trans hv) hvo hos
              (hstack ((h0.trans hu).trans hv)) hr hwalk).later ?_
            exact hlast.trans (hlater ((h0.trans hu).trans huu) hu')
          · -- through the gc queue
            obtain ⟨l₀, hz₀⟩ := (hw.extends (hs.connecting t)).mem hz'
            have hcc : c' = c := by
              refine hI.1.only hz ho htsx c' _ hz₀ ho' ?_
              rw [hxs]
              exact hts'
            rw [hcc, hz] at hz₀
            have hlx : l ∈ x.z.gc := by
              rw [Option.some.inj hz₀]
              exact hl
            obtain ⟨u, u', hu, hfu, hu'⟩ := hqueue l hlx
            have hwu := hw.trans hu
            have hlheld := Held.extends (hu.extends hcon)
              (visits_own.gc (E := E) hI hheld hz hlx)
            have hsy := (fullSync_syncs visits_own fuel
              (own_syncs hs hown hi hwu) hlheld hfu).1
            exact (ih hwu hlheld ((hwu.extends (hs.connecting t)).tsOf hls)
              (hstack hu) hfu hwalk).later (hlater (hu.trans hsy) hu')

end Visits

-- ================================================== an entry without object

/-- There is no object at `a`, or none that thread `t` can connect to. -/
def Lost (E : Engine) (w : World) (t : ThreadId) (a : Addr) : Prop :=
  w.tsOf a = none ∨ w.connectable E t a = false

/-- A full sync that comes to the entry of `s` under `k` finds no object:
the one that was stored is lost and none is cached, or what a connection
in sync has cached is not an object. -/
def Barred (E : Engine) (w : World) (t : ThreadId) (s : TsAddr) (k : Key) :
    Prop :=
  ∃ a b, w.entry s k = some (.object a b)
    ∧ (Lost E w t a ∧ (∀ c z, w.mem.get c = some z → z.owner = t →
        z.tsObj = some s → z.loc.modcount = w.modcountOf s →
          ∀ o, z.loc.cached k ≠ some (.object o))
      ∨ ∃ c z v, w.mem.get c = some z ∧ z.owner = t ∧ z.tsObj = some s
        ∧ z.loc.modcount = w.modcountOf s ∧ z.loc.cached k = some v
        ∧ ∀ o, v ≠ .object o)

/-- An object entry leads somewhere or is barred. -/
theorem goes_or_barred (hown : OwnOf w t) (hb : Built w)
    (hi : w.frame t = .idle) {s : TsAddr} {k : Key} {a : Addr} {b : Nat}
    (he : w.entry s k = some (.object a b)) :
    (∃ s', Goes E w t s k s') ∨ Barred E w t s k := by
  by_cases hin : ∃ c z v, w.mem.get c = some z ∧ z.owner = t
      ∧ z.tsObj = some s ∧ z.loc.modcount = w.modcountOf s
      ∧ z.loc.cached k = some v
  · obtain ⟨c, z, v, hz, ho, hts, hm, hv⟩ := hin
    by_cases hobj : ∃ o, v = .object o
    · obtain ⟨o, rfl⟩ := hobj
      have hheld :=
        (hown.cached hz ho (by rw [hi]; exact List.not_mem_nil) hv).1
      obtain ⟨s', hs'⟩ := hb.held hi hheld
      exact Or.inl ⟨s', Or.inr ⟨⟨a, b, he⟩, c, z, hz, ho, hts, hm, o, hv,
        hs'⟩⟩
    · exact Or.inr ⟨a, b, he, Or.inr ⟨c, z, v, hz, ho, hts, hm, hv,
        not_exists.mp hobj⟩⟩
  · have hnone : ∀ c z, w.mem.get c = some z → z.owner = t →
        z.tsObj = some s → z.loc.modcount = w.modcountOf s →
        ∀ v, z.loc.cached k ≠ some v :=
      fun c z hz ho hts hm v hv => hin ⟨c, z, v, hz, ho, hts, hm, hv⟩
    have hbarred : Lost E w t a → Barred E w t s k := fun hl =>
      ⟨a, b, he, Or.inl ⟨hl, fun c z hz ho hts hm o =>
        hnone c z hz ho hts hm _⟩⟩
    cases ha : w.tsOf a with
    | none => exact Or.inr (hbarred (Or.inl ha))
    | some s' =>
        cases hcan : w.connectable E t a with
        | false => exact Or.inr (hbarred (Or.inr hcan))
        | true =>
            refine Or.inl ⟨s', Or.inl ⟨⟨⟨a, b, he, ha⟩,
              fun c z hz ho hts hm v hv =>
                absurd hv (hnone c z hz ho hts hm v)⟩, fun a' b' he' => ?_⟩⟩
            rw [he] at he'
            injection he' with he'
            injection he' with haa
            rw [← haa]
            exact hcan

/-- Nothing that is lost can be restored. -/
theorem restoreZval_lost (hs : Skel w) (hb : Built w)
    (hi : w.frame t = .idle) {a : Addr} {b : Nat} (ha : Lost E w t a)
    (o : Addr) :
    (w.restoreZval E t (.object a b)).1 ≠ .value (.object o) := by
  intro hr
  rcases ha with ha | ha
  case inr =>
    rw [restoreZval_failed (objectConnect_failed (hs.connecting t) ha)] at hr
    cases hr
  have hfate := restoreZval_fate (E := E) (t := t) hs (.object a b)
  rw [hr] at hfate
  change Fate.value = w.connectFate E t a at hfate
  unfold connectFate unbuilt at hfate
  cases hz : w.mem.get a with
  | none =>
      rw [hz] at hfate
      cases hfate
  | some z =>
      rw [tsOf_of_get hz] at ha
      obtain ⟨scope, defaults, hfr⟩ := hb a z hz ha
      have hne : z.owner ≠ t := fun ho => by
        rw [ho, hi] at hfr
        cases hfr
      simp [hz, hne, ha] at hfate

/-- The object at `a` is lost and no connection in sync has an object
cached under `k`. -/
structure Gone (E : Engine) (w : World) (t : ThreadId) (s : TsAddr) (k : Key)
    (a : Addr) : Prop where
  lost : Lost E w t a
  past : a ∈ w.mem.past
  clean : ∀ c z, w.mem.get c = some z → z.owner = t → z.tsObj = some s →
    z.loc.modcount = w.modcountOf s → ∀ o, z.loc.cached k ≠ some (.object o)

theorem tsOf_eq_none_of_fresh {a : Addr} (hdead : w.tsOf a = none)
    (hpast : a ∈ w.mem.past) (hf : w.mem.Fresh w'.mem)
    (hext : Extends w w') : w'.tsOf a = none := by
  unfold tsOf at hdead ⊢
  cases hz : w.mem.get a with
  | some z =>
      obtain ⟨l, hl⟩ := hext.mem hz
      rw [hz] at hdead
      rw [hl]
      exact hdead
  | none =>
      cases hz' : w'.mem.get a with
      | none => rfl
      | some z' => exact absurd hpast (hf.new hz (by rw [hz']; rfl))

theorem Lost.grow {a : Addr} (hA : E.object.NoReuse) (h : Lost E w t a)
    (hpast : a ∈ w.mem.past) (hg : Grow E t w w') : Lost E w' t a := by
  rcases h with h | h
  · exact Or.inl (tsOf_eq_none_of_fresh h hpast (hg.fresh hA) hg.extends)
  · obtain ⟨s, hs⟩ := tsOf_of_not_connectable h
    exact Or.inr ((hg.connectable hs).trans h)

theorem Lost.modify {a : Addr} (h : Lost E w t a) (hpast : a ∈ w.mem.past)
    (c : Addr) (f : ZObj → Local) :
    Lost E { w with mem := w.mem.modify c fun z =>
      { z with loc := f z } } t a :=
  h.imp (fun h => tsOf_eq_none_of_fresh h hpast (.modify _ _ _)
      (extends_modify_loc w c f))
    (connectable_modify E w c f t a).trans

/-- No connection of the thread leads to what is lost. -/
theorem Lost.not_held {a o : Addr} (hs : Skel w) (h : Lost E w t a)
    (ho : Held w t (.object o)) {s : TsAddr} (hos : w.tsOf o = some s) :
    w.tsOf a ≠ some s := by
  intro has
  rcases h with h | h
  · rw [h] at has
    cases has
  · obtain ⟨z, hz, hoz⟩ := ho
    rw [connectable_of_owner hs has hz hoz ((tsOf_of_get hz).symm.trans hos)]
      at h
    cases h

theorem Gone.grow {s : TsAddr} {k : Key} {a : Addr}
    (hA : E.object.NoReuse) (h : Gone E w t s k a) (hg : Grow E t w w') :
    Gone E w' t s k a where
  lost := h.lost.grow hA h.past hg
  past := (hg.fresh hA).past h.past
  clean c z hz ho hts hm o hv := by
    rcases hg.new hz with hz | ⟨-, hnew⟩
    · rw [hg.modcountOf] at hm
      exact h.clean c z hz ho hts hm o hv
    · rw [hnew.cached] at hv
      cases hv

/-- One local table changes. -/
theorem Gone.modify {s : TsAddr} {k : Key} {a : Addr}
    (h : Gone E w t s k a) {c : Addr} {x : Conn} (hx : w.conn c = some x)
    {f : ZObj → Local}
    (hf : x.s = s → (f x.z).modcount = x.o.props.modcount →
      ∀ o, (f x.z).cached k = some (.object o) →
        x.z.loc.modcount = x.o.props.modcount
          ∧ x.z.loc.cached k = some (.object o)) :
    Gone E { w with mem := w.mem.modify c fun z =>
      { z with loc := f z } } t s k a where
  lost := h.lost.modify h.past c f
  past := h.past
  clean c' z hz ho hts hm o hv := by
    obtain ⟨hzx, htsx, hox⟩ := conn_eq_some.mp hx
    change (w.mem.modify c _).get c' = some z at hz
    change z.loc.modcount = w.modcountOf s at hm
    by_cases hc : c' = c
    · rw [hc, Heap.get_modify_self, hzx] at hz
      replace hz := Option.some.inj hz
      rw [← hz] at ho hts hm hv
      have hss : x.s = s := Option.some.inj (htsx.symm.trans hts)
      rw [← hss, modcountOf_eq hox] at hm
      obtain ⟨hmx, hvx⟩ := hf hss hm o hv
      rw [← modcountOf_eq hox, hss] at hmx
      exact h.clean c x.z hzx ho hts hmx o hvx
    · rw [Heap.get_modify_ne _ _ hc] at hz
      exact h.clean c' z hz ho hts hm o hv

/-- A sync drops the connections to an object that is lost. -/
theorem Gone.sync {s : TsAddr} {k : Key} {a : Addr} {b : Nat}
    (hs : Skel w) (hown : OwnOf w t) (hb : Built w) (hi : w.frame t = .idle)
    (h : Gone E w t s k a) (he : w.entry s k = some (.object a b)) {c : Addr}
    {x : Conn} (hx : w.conn c = some x) (ho : x.z.owner = t) :
    Gone E (w.begun c x) t s k a := by
  obtain ⟨hz, -, hox⟩ := conn_eq_some.mp hx
  refine h.modify hx (f := fun _ => _) fun hss _ o hv => ?_
  rw [Local.cached_initProps, cached_syncLocal] at hv
  split at hv
  case isTrue hm => exact ⟨hm, hv⟩
  case isFalse =>
    rw [← hss, entry_eq hox] at he
    rw [he] at hv
    obtain ⟨hc, hkeep⟩ := Option.filter_eq_some_iff.mp hv
    have hheld :=
      (hown.cached hz ho (by rw [hi]; exact List.not_mem_nil) hc).1
    obtain ⟨s', hs'⟩ := hb.held hi hheld
    refine absurd ?_ (h.lost.not_held hs hheld hs')
    rcases Bool.or_eq_true_iff.mp hkeep with heq | heq
    · rw [beq_iff_eq.mp heq, hs']
    · rw [beq_iff_eq.mp (Bool.and_eq_true_iff.mp heq).2, hs']

theorem Gone.syncs {s : TsAddr} {k : Key} {a : Addr} {b : Nat}
    (hA : E.object.NoReuse) (hsy : Syncs E t (· = t) w w') :
    Skel w → OwnOf w t → Built w → w.frame t = .idle →
    w.entry s k = some (.object a b) → Gone E w t s k a → Gone E w' t s k a := by
  induction hsy with
  | refl => exact fun _ _ _ _ _ h => h
  | grow _ hg ih =>
      exact fun hs hown hb hi he h =>
        (ih hs hown hb hi he h).grow hA (.single hg)
  | @sync w u c x hu hx ho ih =>
      intro hs hown hb hi he h
      obtain ⟨hsu, hownu, hiu⟩ := own_syncs hs hown hi hu
      have heu := (entry_of_props (hu.props (hs.connecting t)) s k).1.trans he
      exact (ih hs hown hb hi he h).sync hsu hownu (hb.syncs hs hu) hiu heu
        hx ho
  | @put w u u₁ u₂ c x k' st r hu hx ho hst hcache hn hr hne hu₂ hz ih ih' =>
      intro hs hown hb hi he h
      obtain ⟨hsu, hownu, hiu⟩ := own_syncs hs hown hi hu
      have hbu := hb.syncs hs hu
      have heu := (entry_of_props (hu.props (hs.connecting t)) s k).1.trans he
      have hgu := ih hs hown hb hi he h
      obtain ⟨hs₁, hg, n, hx₂⟩ := conn_restored hsu hx hr hu₂ hz
      have hsy₁ : Syncs E t (· = t) u u₁ := .of_grow hg
      obtain ⟨-, hown₁, hi₁⟩ := own_syncs hsu hownu hiu hsy₁
      have he₁ := (entry_of_props hg.props s k).1.trans heu
      have hg₂ := ih' hs₁ hown₁ (hbu.syncs hsu hsy₁) hi₁ he₁
        (hgu.grow hA hg)
      refine hg₂.modify hx₂ (f := fun z => z.loc.put z.declared k' r.zval)
        fun hss hm o hv => ?_
      change (x.z.loc.put x.z.declared k' r.zval).cached k = some _ at hv
      rw [Local.cached_put] at hv
      split at hv
      case isFalse => exact ⟨hm, hv⟩
      case isTrue hk =>
        change x.s = s at hss
        rw [← hss, entry_eq (conn_eq_some.mp hx).2.2, hk, hst] at heu
        rw [Option.some.inj heu] at hr
        refine absurd ?_ (restoreZval_lost (b := b) hsu hbu hiu hgu.lost o)
        have hzv := Option.some.inj (Option.filter_eq_some_iff.mp hv).1
        rw [hr]
        cases r with
        | value v => exact congrArg Restored.value hzv
        | failed => cases hzv
        | fault => cases hzv

/-- The turn of a barred entry takes something else for an object. -/
theorem fullSyncEntry_barred {recurse : World → Addr → Option World}
    {u : World} {c : Addr} {x : Conn} {k : Key} {a : Addr} {b : Nat}
    (hA : E.object.NoReuse) (hs : Skel w) (hown : OwnOf w t) (hb : Built w)
    (hi : w.frame t = .idle) (haddr : AddrInv w)
    (hbar : Barred E w t x.s k) (hsy : Syncs E t (· = t) w u)
    (hx : u.conn c = some x) (ho : x.z.owner = t)
    (hm : x.z.loc.modcount = x.o.props.modcount)
    (hst : x.o.props.hash.find k = some (.object a b)) :
    fullSyncEntry E t recurse c u (k, .object a b) = none := by
  obtain ⟨hz, hts, hox⟩ := conn_eq_some.mp hx
  obtain ⟨hsu, hownu, hiu⟩ := own_syncs hs hown hi hsy
  have hin : x.z.loc.modcount = u.modcountOf x.s := by
    rw [modcountOf_eq hox]
    exact hm
  have hcached : ∀ {v}, x.z.loc.cached k = some v → (∀ o, v ≠ .object o) →
      fullSyncEntry E t recurse c u (k, .object a b) = none := by
    intro v hv hno
    unfold fullSyncEntry
    rw [hz, Option.bind_some, hv]
    cases v with
    | object o => exact absurd rfl (hno o)
    | _ => rfl
  obtain ⟨a', b', he, ⟨hdead, hclean⟩ | ⟨c₀, z₀, v, hz₀, ho₀, hts₀, hm₀, hv,
    hno⟩⟩ := hbar
  · -- the object is lost
    have hg := Gone.syncs hA hsy hs hown hb hi he
      ⟨hdead, haddr.past he, hclean⟩
    have heu := (entry_of_props (hsy.props (hs.connecting t)) x.s k).1.trans he
    rw [entry_eq hox, hst] at heu
    injection heu with heu
    injection heu with haa hbb
    cases hc : x.z.loc.cached k with
    | some v =>
        exact hcached hc fun o hvo =>
          hg.clean c x.z hz ho hts hin o (hvo ▸ hc)
    | none =>
        have hraw := restoreZval_lost (b := b) hsu (hb.syncs hs hsy) hiu
          (haa ▸ hg.lost)
        unfold fullSyncEntry
        rw [hz, Option.bind_some, hc]
        rcases hr : u.restoreZval E t (.object a b) with ⟨r, u'⟩
        rw [hr] at hraw
        simp only [storageIsCacheable, storageIsPmmpthreadObj, if_true]
        cases r with
        | fault => rfl
        | failed => rfl
        | value v =>
            cases v with
            | object o => exact absurd rfl (hraw o)
            | _ => rfl
  · -- something else is cached, and stays so
    obtain ⟨l, hl, -, hk⟩ := hsy.keeps hs c₀ z₀ x.s hz₀ hts₀ hm₀
    have hcc := hsu.only hz ho hts c₀ _ hl ho₀ hts₀
    rw [hcc, hz] at hl
    refine hcached ?_ hno
    rw [Option.some.inj hl]
    exact hk k v hv

-- ==================================================== who can be full synced

/-- Every object entry that a full sync of `s` comes to leads somewhere. -/
def AllGo (E : Engine) (w : World) (t : ThreadId) (s : TsAddr) : Prop :=
  ∀ p, Relation.ReflTransGen (Leads E w t) s p → ∀ k a b,
    w.entry p k = some (.object a b) → ∃ s', Goes E w t p k s'

/-- The closures that it comes to are there or need not be restored. -/
def ClosuresFine (E : Engine) (w : World) (t : ThreadId) (s : TsAddr) :
    Prop :=
  ∀ p, Relation.ReflTransGen (Leads E w t) s p → ∀ k q thisObj owner,
    w.entry p k = some (.closure q thisObj owner) →
    Fine w t p k (.closure q thisObj owner)

/-- A string that is stored is there. -/
theorem fine_of_entry (hown : ∀ a, OwnOf w a) {s : TsAddr} {k : Key}
    {st : Storage} (he : w.entry s k = some st)
    (hcl : ∀ q thisObj owner, st = .closure q thisObj owner →
      Fine w t s k st) : Fine w t s k st := by
  cases st with
  | closure q thisObj owner => exact hcl q thisObj owner rfl
  | stringPtr owner p b =>
      refine Or.inl ?_
      show (w.strings.get p).isSome = true
      rw [((hown owner).strings he).1]
      rfl
  | _ => exact Or.inl trivial

/-- A connection of a thread that runs PHP code. -/
theorem ready_held {c : Addr} {x : Conn}
    (hx : w.ready c = some x) :
    w.frame x.z.owner = .idle ∧ Held w x.z.owner (.object c)
      ∧ w.tsOf c = some x.s := by
  obtain ⟨hc, hi⟩ := ready_eq_some.mp hx
  obtain ⟨hz, hts, -⟩ := conn_eq_some.mp hc
  refine ⟨hi, ⟨x.z, hz, rfl⟩, ?_⟩
  exact (tsOf_of_get hz).trans hts

theorem fullSync_of_allGo (hr : Reachable E w) {c : Addr} {x : Conn}
    (hx : w.ready c = some x) (hgo : AllGo E w x.z.owner x.s)
    (hst : ClosuresFine E w x.z.owner x.s) :
    ∃ fuel w', fullSync E x.z.owner fuel [] w c = some w' := by
  obtain ⟨hi, hheld, hts⟩ := ready_held hx
  refine ⟨w.shared.cells.keys.length + 1, ?_⟩
  refine fullSync_ends hr.skel (hr.own _) hi
    ((hr.own _).queuesHold hr.built hi)
    (S := { p | Relation.ReflTransGen (Leads E w x.z.owner) x.s p })
    (fun s hs s' hl => hs.tail hl) hgo (fun s hs k st he _ => ?_) _
    (P := []) (.refl w) hheld hts .refl (fun _ h => by cases h)
    List.nodup_nil (List.nil_subset _) ?_
  · refine fine_of_entry hr.own he fun q thisObj owner hq => ?_
    rw [hq] at he ⊢
    exact hst s hs k q thisObj owner he
  · rw [List.length_nil]
    omega

theorem allGo_of_fullSync (hA : E.object.NoReuse) (hr : Reachable E w)
    {c : Addr} {x : Conn} (hx : w.ready c = some x) {fuel : Nat}
    (h : fullSync E x.z.owner fuel [] w c = some w') :
    AllGo E w x.z.owner x.s := by
  obtain ⟨hi, hheld, hts⟩ := ready_held hx
  have hs := hr.skel
  have hown := hr.own x.z.owner
  intro p hp k a b he
  rcases goes_or_barred hown hr.built hi he with hgo | hbar
  · exact hgo
  -- the full sync came to the entry, which is where it goes wrong
  obtain ⟨v, c', y, fuel', protect, hv, hy, ho, hys, -, hturns⟩ :=
    fullSync_visited hs hown hi fuel (.refl w) hheld hts
      (A := ∅) (fun _ h => by cases h) h (walk_of_reach hp)
  have hey := (entry_of_props (hv.props (hs.connecting _)) p k).1.trans he
  rw [← hys, entry_eq (conn_eq_some.mp hy).2.2] at hey
  obtain ⟨u, u', hu, hturn, -⟩ :=
    hturns (k, .object a b) (HashTable.find_eq_some_iff.mp hey)
  have h0 : Syncs E x.z.owner (· = x.z.owner) v (v.begun c' y) :=
    .sync (.refl v) hy ho
  obtain ⟨l, n, hyu, hm⟩ := conn_begun hs hown hi hv hy ho hu
  rw [← hys] at hbar
  have hno : fullSyncEntry E x.z.owner
      (fullSync E x.z.owner fuel' (c' :: protect)) c' u (k, .object a b)
        = none :=
    fullSyncEntry_barred (x := ⟨{ y.z with loc := l }, y.s,
      { y.o with refcount := n }⟩) hA hs hown hr.built hi (hr.addrInv hA)
      hbar (hv.trans (h0.trans hu)) hyu ho hm hey
  rw [hno] at hturn
  cases hturn

/-- A full sync takes nothing else for an object and gets to its end if
every object entry that it comes to leads somewhere; and only if, where
no address is used twice. -/
theorem full_sync_tolerates_iff (E : Engine) (w : World)
    (hr : Reachable E w) (c : Addr) (x : Conn) (hx : w.ready c = some x) :
    (AllGo E w x.z.owner x.s → ClosuresFine E w x.z.owner x.s →
        ∃ fuel w', fullSync E x.z.owner fuel [] w c = some w')
      ∧ (E.object.NoReuse →
        (∃ fuel w', fullSync E x.z.owner fuel [] w c = some w') →
        AllGo E w x.z.owner x.s) := by
  refine ⟨fun hgo hst => fullSync_of_allGo hr hx hgo hst, ?_⟩
  rintro hA ⟨fuel, w', h⟩
  exact allGo_of_fullSync hA hr hx h

theorem full_sync_tolerates_iff_storeForeign :
    ∃ w x, Reachable (demoEngine .bump) w ∧ w.ready 1 = some x
      ∧ w.entry x.s (.long 0) = some (.object 3 1)
      ∧ AllGo (demoEngine .bump) w x.z.owner x.s := by
  have hview : (run (demoEngine .bump) init storeForeign).map
      (fun w => ((w.ready 1).map fun x => (x.z.owner, x.s),
        w.entry 1 (.long 0),
        (fullSync (demoEngine .bump) 1 2 [] w 1).isSome))
      = some (some (1, 1), some (.object 3 1), true) := by
    decide
  obtain ⟨w, hw, hv⟩ := Option.map_eq_some_iff.mp hview
  obtain ⟨hready, hv⟩ := Prod.mk.inj hv
  obtain ⟨hentry, hends⟩ := Prod.mk.inj hv
  obtain ⟨x, hx, hxv⟩ := Option.map_eq_some_iff.mp hready
  obtain ⟨ho, hxs⟩ := Prod.mk.inj hxv
  obtain ⟨w', hw'⟩ := Option.isSome_iff_exists.mp hends
  refine ⟨w, x, ⟨_, hw⟩, hx, by rw [hxs]; exact hentry, ?_⟩
  refine (full_sync_tolerates_iff (demoEngine .bump) w ⟨_, hw⟩ 1 x hx).2
    Allocator.bump_noReuse ⟨2, w', ?_⟩
  rw [ho]
  exact hw'

/-- Then thread 2 frees its connection and the object that is stored
there. -/
def dropNested : List Act :=
  storeForeign ++ [.release 2 [2, 3], .baseFree 2, .baseFree 2]

/-- A full sync of the object that is left takes the null that restoring
left for an object. -/
theorem full_sync_mistakes_null :
    ∃ w x, run (demoEngine .bump) init dropNested = some w
      ∧ w.ready 1 = some x ∧ w.entry x.s (.long 0) = some (.object 3 1)
      ∧ (w.restoreZval (demoEngine .bump) x.z.owner (.object 3 1)).1 = .failed
      ∧ ∀ fuel, fullSync (demoEngine .bump) x.z.owner fuel [] w 1 = none := by
  have hview : (run (demoEngine .bump) init dropNested).map
      (fun w => ((w.ready 1).map fun x => (x.z.owner, x.s),
        w.entry 1 (.long 0),
        (w.restoreZval (demoEngine .bump) 1 (.object 3 1)).1))
      = some (some (1, 1), some (.object 3 1), .failed) := by
    decide
  have hnone : ∀ fuel, (run (demoEngine .bump) init dropNested).bind
      (fun w => fullSync (demoEngine .bump) 1 fuel [] w 1) = none := by
    intro fuel
    cases fuel with
    | zero => rfl
    | succ fuel => rfl
  obtain ⟨w, hw, hv⟩ := Option.map_eq_some_iff.mp hview
  obtain ⟨hready, hv⟩ := Prod.mk.inj hv
  obtain ⟨hentry, hfailed⟩ := Prod.mk.inj hv
  obtain ⟨x, hx, hxv⟩ := Option.map_eq_some_iff.mp hready
  obtain ⟨ho, hxs⟩ := Prod.mk.inj hxv
  rw [hw] at hnone
  refine ⟨w, x, hw, hx, ?_, ?_, ?_⟩
  · rw [hxs]
    exact hentry
  · rw [ho]
    exact hfailed
  · rw [ho]
    exact hnone

end PmmpThread.Model.World
