/-
The shared globals over whole runs of requests.

A step of PHP code leaves each thread's connection to the globals alone,
unless it frees that very object (`step_globals`). So a request keeps the
connection that its RINIT made, and the module's variable names the
connection of some thread, which is live (`Bound`).
-/
import PmmpThread.Model.Requests
import PmmpThread.Proofs.MergeRuns

namespace PmmpThread.Model

open Zend

variable {E : Engine} {t : ThreadId}

namespace World

variable {w w' : World}

-- ======================================================== single steps

theorem baseCtor_globals {a : Addr} {scope : Scope}
    {defaults : List (List Default)} (hc : w.connecting t = none)
    (h : w.baseCtor E t a scope defaults = some w') :
    w'.threadSharedGlobals = w.threadSharedGlobals := by
  unfold baseCtor at h
  rw [hc] at h
  have hd : ((w.tsObjectCtor E t a scope).writePropertyDefaults a
      defaults).threadSharedGlobals = w.threadSharedGlobals := by
    refine writePropertyDefaults_induct (P := fun u =>
      u.threadSharedGlobals = w.threadSharedGlobals) defaults ?_ rfl
    intro u k v r _ hu hr
    obtain ⟨x, st, -, -, rfl⟩ := writeLocked_some hr
    exact hu
  rw [← Option.some.inj h, ← hd]
  unfold registerObject
  split <;> rfl

/-- A free forgets the freed connection only. -/
theorem baseFree_globals (hs : Skel w) (hown : OwnInv w) {a : Addr}
    {batch : List Addr} (hf : w.frame t = .freeing (a :: batch))
    (h : w.baseFree t a = some w') (t' : ThreadId) :
    w'.threadSharedGlobals t'
      = (w.threadSharedGlobals t').filter fun l => some a != some l := by
  obtain ⟨s, hts, hres, o, ho⟩ := hs.freeing hf
  rw [(baseFree_mem hts ho hres h).2.2.2.2]
  have hfo := hs.frames t
  rw [hf] at hfo
  obtain ⟨z, -, hz, howner, -⟩ := hfo.2 a List.mem_cons_self
  cases hg : w.threadSharedGlobals t' with
  | none =>
      unfold globalsWithout
      by_cases ha : w.threadSharedGlobals t = some a
      · rw [if_pos ha]
        by_cases ht : t' = t
        · rw [ht, Function.update_self]
          rfl
        · rw [Function.update_of_ne ht, hg]
          rfl
      · rw [if_neg ha, hg]
        rfl
  | some l =>
      by_cases hl : a = l
      · -- the owner of the freed object is the thread that frees it
        obtain ⟨z', hz', howner'⟩ := (hown t').globals hg
        rw [← hl, hz] at hz'
        have ht : t' = t := by
          rw [← howner', ← howner, Option.some.inj hz']
        have ha : w.threadSharedGlobals t = some a := by rw [← ht, hg, hl]
        unfold globalsWithout
        rw [if_pos ha, ht, Function.update_self, Option.filter_some, hl,
          bne_self_eq_false, if_neg Bool.false_ne_true]
      · have hkeep : w.globalsWithout t a t' = some l := by
          unfold globalsWithout
          split
          case isTrue ha =>
            have ht : t' ≠ t := by
              intro ht
              rw [← ht, hg] at ha
              exact hl (Option.some.inj ha).symm
            rw [Function.update_of_ne ht, hg]
          case isFalse => exact hg
        rw [hkeep, Option.filter_some, if_pos]
        exact bne_iff_ne.mpr fun h => hl (Option.some.inj h)

/-- A step that is not about the globals and begins no free. -/
structure Quiet (w w' : World) : Prop where
  globals : w'.threadSharedGlobals = w.threadSharedGlobals
  batch : ∀ {t l}, l ∈ (w'.frame t).batch → l ∈ (w.frame t).batch

theorem Quiet.refl (w : World) : Quiet w w := ⟨rfl, fun h => h⟩

theorem Extends.quiet (h : Extends w w') : Quiet w w' :=
  ⟨h.globals, fun hl => h.frame ▸ hl⟩

/-- A frame that frees nothing adds nothing to a batch. -/
theorem batch_setFrame (w : World) (u : ThreadId) {f : Frame}
    (hf : f.batch = []) {l : Addr}
    (hl : l ∈ (Function.update w.frame u f t).batch) :
    l ∈ (w.frame t).batch := by
  by_cases ht : t = u
  · rw [ht, Function.update_self, hf] at hl
    cases hl
  · rw [Function.update_of_ne ht] at hl
    exact hl

theorem step_quiet {act : Act} (hs : Skel w)
    (hstep : step E w act = some w') (hbind : ∀ a, act ≠ .bindGlobals a)
    (hrel : ∀ t b, act ≠ .release t b) (hfree : ∀ t, act ≠ .baseFree t) :
    Quiet w w' := by
  have hcon := fun t => hs.connecting t
  have hgrow : ∀ {t u}, Grow E t w u → Quiet w u := fun hg =>
    hg.extends.quiet
  cases step_effect hstep with
  | @bindGlobals a _ _ => exact absurd rfl (hbind a)
  | @release t b _ => exact absurd rfl (hrel t b)
  | @baseFree t _ _ _ _ _ => exact absurd rfl (hfree t)
  | alloc _ _ => exact ⟨rfl, batch_setFrame w _ rfl⟩
  | @ctor t a scope defaults u hf hu =>
      have hfo := hs.frames t
      rw [hf] at hfo
      obtain ⟨z, hz, -, -⟩ := hfo
      have hframe := (baseCtor_same hs hz hu).2
      have hg := baseCtor_globals (hcon t) hu
      exact ⟨hg,
        fun h => hframe ▸ batch_setFrame u _ rfl h⟩
  | @connect t a _ => exact hgrow (objectConnect_grow (hcon t) a)
  | @readRestored c k access x st v u _ _ _ hr =>
      have hg := (grow_of_restored hr (hcon x.z.owner)).extends.quiet
      exact ⟨hg.globals, fun h => hg.batch (batch_setFrame u _ rfl h)⟩
  | @readThrew c k access x st u _ hr =>
      have hg := (grow_of_restored hr (hcon x.z.owner)).extends.quiet
      exact ⟨hg.globals, hg.batch⟩
  | write _ _ _ => exact ⟨rfl, batch_setFrame w _ rfl⟩
  | delete _ _ => exact ⟨rfl, batch_setFrame w _ rfl⟩
  | fill _ => exact ⟨rfl, batch_setFrame w _ rfl⟩
  | drop _ => exact ⟨rfl, batch_setFrame w _ rfl⟩
  | @take _ c x e p r u _ _ hr _ =>
      have hg := hgrow (grow_of_restored hr (hcon x.z.owner))
      exact ⟨hg.globals, hg.batch⟩
  | @chunk c size x r _ hr =>
      have hg := hgrow (restoreAll_grow _ (hcon x.z.owner) hr)
      exact ⟨hg.globals, hg.batch⟩
  | @tohash c own x r l _ hr _ =>
      have hg := hgrow (restoreAll_grow _ (hcon x.z.owner) hr)
      exact ⟨hg.globals, hg.batch⟩
  | fullSync _ hu =>
      exact ((fullSync_syncs visits_all _ (hcon _) trivial hu).1.extends
        (hcon _)).quiet
  | join _ hu =>
      exact ((joinSync_syncs visits_all (hcon _) trivial
        (fun _ _ => trivial) hu).extends (hcon _)).quiet
  | _ => exact ⟨rfl, fun h => h⟩

/-- The two steps that `Quiet` leaves out: a release begins a batch, -/
theorem step_release {u : ThreadId} {b : List Addr}
    (h : step E w (.release u b) = some w') :
    w' = w.setFrame u (.freeing b) := by
  by_cases hc : w.canRelease u b = true
  · exact (Option.some.inj ((if_pos hc).symm.trans h)).symm
  · cases (if_neg hc).symm.trans h

/-- and a free takes the first object of one. -/
theorem step_baseFree {u : ThreadId} (h : step E w (.baseFree u) = some w') :
    ∃ a batch v, w.frame u = .freeing (a :: batch)
      ∧ w.baseFree u a = some v ∧ w' = v.setFrame u
        (if batch.isEmpty then .idle else .freeing batch) := by
  cases step_effect h with
  | baseFree hf hv => exact ⟨_, _, _, hf, hv, rfl⟩
  | takeNothing hact => rcases hact with h | h <;> cases h
  | take _ ht => rcases ht with ⟨h, -⟩ | ⟨h, -⟩ <;> cases h

/-- A step keeps each thread's connection to the globals until it frees
it. -/
theorem step_globals {act : Act} (hs : Skel w) (hown : OwnInv w)
    (hstep : step E w act = some w') (hbind : ∀ a, act ≠ .bindGlobals a)
    (t : ThreadId) : w'.threadSharedGlobals t
      = (w.threadSharedGlobals t).filter fun l => w.freedBy act != some l := by
  have hkeep : ∀ o : Option Addr, o = o.filter fun l => none != some l := by
    intro o
    cases o <;> rfl
  by_cases hfree : ∃ u, act = .baseFree u
  · obtain ⟨u, rfl⟩ := hfree
    obtain ⟨a, batch, v, hf, hv, rfl⟩ := step_baseFree hstep
    show v.threadSharedGlobals t = _
    have hhead : w.freedBy (.baseFree u) = some a := by
      show (w.frame u).batch.head? = some a
      rw [hf]
      rfl
    rw [baseFree_globals hs hown hf hv, hhead]
  · have hnone : w.freedBy act = none := by
      cases act with
      | baseFree u => exact absurd ⟨u, rfl⟩ hfree
      | _ => rfl
    rw [hnone, ← hkeep]
    by_cases hrel : ∃ u b, act = .release u b
    · obtain ⟨u, b, rfl⟩ := hrel
      rw [step_release hstep]
      rfl
    · rw [(step_quiet hs hstep hbind (fun u b h => hrel ⟨u, b, h⟩)
        fun u h => hfree ⟨u, h⟩).globals]

/-- What a thread is about to free, it was about to free before or has
just released. -/
theorem batch_of_step {act : Act} (hs : Skel w)
    (hstep : step E w act = some w') {l : Addr}
    (hl : l ∈ (w'.frame t).batch) :
    l ∈ (w.frame t).batch ∨ ∃ b, act = .release t b ∧ l ∈ b := by
  cases act with
  | bindGlobals a =>
      obtain ⟨x, -, rfl⟩ := Option.map_eq_some_iff.mp hstep
      exact Or.inl hl
  | release u b =>
      rw [step_release hstep] at hl
      change l ∈ (Function.update w.frame u (.freeing b) t).batch at hl
      by_cases ht : t = u
      · rw [ht, Function.update_self] at hl
        exact Or.inr ⟨b, by rw [ht], hl⟩
      · rw [Function.update_of_ne ht] at hl
        exact Or.inl hl
  | baseFree u =>
      obtain ⟨a, batch, v, hf, hv, rfl⟩ := step_baseFree hstep
      obtain ⟨s, hts, hres, o, ho⟩ := hs.freeing hf
      change l ∈ (Function.update v.frame u _ t).batch at hl
      rw [(baseFree_mem hts ho hres hv).2.2.2.1] at hl
      by_cases ht : t = u
      · rw [ht, Function.update_self] at hl
        rw [ht, hf]
        by_cases hb : batch.isEmpty = true
        · rw [if_pos hb] at hl
          cases hl
        · rw [if_neg hb] at hl
          exact Or.inl (List.mem_cons_of_mem a hl)
      · rw [Function.update_of_ne ht] at hl
        exact Or.inl hl
  | _ =>
      exact Or.inl ((step_quiet hs hstep (fun _ h => by cases h)
        (fun _ _ h => by cases h) fun _ h => by cases h).batch hl)

-- ================================================ the connection of RINIT

/-- The object `l` of thread `t` is a connection to `s`. -/
def Joined (w : World) (t : ThreadId) (l : Addr) (s : TsAddr) : Prop :=
  ∃ z, w.mem.get l = some z ∧ z.owner = t ∧ z.tsObj = some s

/-- In the words of the world: it has the `ts_obj`, -/
theorem Joined.tsOf {l : Addr} {s : TsAddr} (h : Joined w t l s) :
    w.tsOf l = some s := by
  obtain ⟨z, hz, -, hts⟩ := h
  exact (tsOf_of_get hz).trans hts

/-- and it is a connection of the thread. -/
theorem Joined.conn (hs : Skel w) {l : Addr} {s : TsAddr}
    (h : Joined w t l s) :
    ∃ x, w.conn l = some x ∧ x.z.owner = t ∧ x.s = s := by
  obtain ⟨z, hz, ho, hts⟩ := h
  obtain ⟨o, hoo⟩ := hs.tsLive hz hts
  exact ⟨⟨z, s, o⟩, conn_eq_some.mpr ⟨hz, hts, hoo⟩, ho, rfl⟩

/-- What RINIT does to the world before it sets the variable: thread `t`
gets the connection `l` to `s`. -/
structure Joins (E : Engine) (w : World) (t : ThreadId) (l : Addr)
    (s : TsAddr) (w' : World) : Prop where
  reach : Reachable E w'
  frame : w'.frame = w.frame
  globals : w'.threadSharedGlobals = w.threadSharedGlobals
  joined : Joined w' t l s
  kept : ∀ {t' a s'}, Joined w t' a s' → Joined w' t' a s'

/-- Where another thread made the globals, RINIT connects to them, -/
theorem objectConnect_joins (hw : Reachable E w) (hi : w.frame t = .idle)
    {t' : ThreadId} {g : Addr} {s : TsAddr} (hg : Joined w t' g s)
    (hcan : w.connectable E t g = true) :
    ∃ l w', w.objectConnect E t g = (.ok l, w') ∧ Joins E w t l s w' := by
  have hs := hw.skel
  obtain ⟨l, hl, hts⟩ := objectConnect_ts hs hg.tsOf hcan
  have hext := (objectConnect_grow (E := E) (hs.connecting t) g).extends
  rcases hcon : w.objectConnect E t g with ⟨r, w'⟩
  rw [hcon] at hl hts hext
  cases hl
  have hstep : step E w (.connect t g) = some w' := by
    show (if _ then _ else _) = _
    rw [if_pos (isIdle_iff.mpr hi), hcon]
  refine ⟨l, w', rfl, hw.after hstep, hext.frame, hext.globals, ?_, ?_⟩
  · obtain ⟨z, hz, ho⟩ := objectConnect_held hs hcon
    exact ⟨z, hz, ho, (tsOf_of_get hz).symm.trans hts⟩
  · rintro u a s' ⟨z, hz, ho, htsa⟩
    obtain ⟨loc, hz'⟩ := hext.mem hz
    exact ⟨_, hz', ho, htsa⟩

/-- and the first thread makes a new array. -/
theorem newArray_joins (hw : Reachable E w) (hi : w.frame t = .idle) :
    ∃ l w', w.newArray E t = some (l, w')
      ∧ Joins E w t l (w.shared.next E.shared) w' := by
  have hc := hw.skel.connecting t
  obtain ⟨w', hnew, hmem, -⟩ := newArray_eq (E := E) hc
  obtain ⟨hw', hframe⟩ := newArray_reachable hw hi hnew
  have hglobals : w'.threadSharedGlobals = w.threadSharedGlobals := by
    obtain ⟨u, hu, heq⟩ := Option.map_eq_some_iff.mp hnew
    have hcu : (w.objectAlloc E t []).2.connecting t = none := hc
    rw [← (Prod.mk.inj heq).2, baseCtor_globals hcu hu]
    rfl
  refine ⟨_, w', hnew, hw', hframe, hglobals,
    ⟨_, (hmem _).trans (if_pos rfl), rfl, rfl⟩, ?_⟩
  rintro u a s' ⟨z, hz, ho, hts⟩
  refine ⟨z, ?_, ho, hts⟩
  rw [hmem, if_neg (Heap.ne_next_of_get hz)]
  exact hz

end World

namespace Process

open World

variable {p q : Process}

-- ============================================================ one event

/-- What holds between two events. -/
structure Bound (E : Engine) (p : Process) : Prop where
  world : World.Reachable E p.world
  /-- The module's variable is the connection of some thread. -/
  globals : ∀ {g}, p.globals = some g →
    ∃ t, p.world.threadSharedGlobals t = some g
  joined : ∀ {t l}, p.world.threadSharedGlobals t = some l →
    ∃ s, Joined p.world t l s
  /-- A request has its connection, which is not about to be freed. -/
  request : ∀ {t}, p.inRequest t = true →
    ∃ l, p.world.threadSharedGlobals t = some l
      ∧ l ∉ (p.world.frame t).batch

theorem bound_init : Bound E init where
  world := ⟨[], rfl⟩
  globals h := by cases h
  joined h := by cases h
  request h := by cases h

/-- The two outcomes of `pmmpthread_init_thread_shared_globals`: it
connects to the array that is there, or makes one. -/
theorem initThreadSharedGlobals_spec (hb : Bound E p)
    (hi : p.world.frame t = .idle)
    (hcan : ∀ g, p.globals = some g → p.world.connectable E t g = true) :
    ∃ l s w, Joins E p.world t l s w
      ∧ p.initThreadSharedGlobals E t = some { p with
          world := w.setGlobals t l, globals := some (p.globals.getD l) }
      ∧ (∀ g, p.globals = some g → p.world.tsOf g = some s)
      ∧ (p.globals = none → p.world.shared.get s = none) := by
  unfold initThreadSharedGlobals
  cases hg : p.globals with
  | some g =>
      obtain ⟨t', ht'⟩ := hb.globals hg
      obtain ⟨s, hs⟩ := hb.joined ht'
      obtain ⟨l, w, hcon, hj⟩ :=
        objectConnect_joins hb.world hi hs (hcan g hg)
      refine ⟨l, s, w, hj, ?_, ?_, fun h => by cases h⟩
      · simp only [hcon, Option.getD_some]
      · intro g' hg'
        rw [← Option.some.inj hg']
        exact hs.tsOf
  | none =>
      obtain ⟨l, w, hnew, hj⟩ := newArray_joins hb.world hi
      refine ⟨l, _, w, hj, ?_, (fun g h => by cases h),
        fun _ => p.world.shared.get_next E.shared⟩
      rw [hnew]
      rfl

/-- Where it has come to its end, it could connect. -/
theorem connectable_of_init (hs : Skel p.world)
    (h : p.initThreadSharedGlobals E t = some q) {g : Addr}
    (hg : p.globals = some g) : p.world.connectable E t g = true := by
  by_contra hno
  unfold initThreadSharedGlobals at h
  simp only [hg, objectConnect_failed (hs.connecting t)
    (Bool.eq_false_iff.mpr hno)] at h
  cases h

/-- Setting the variable is a step of the world. -/
theorem setGlobals_step {w w' : World} {l : Addr} {s : TsAddr}
    (hi : w.frame t = .idle) (hj : Joins E w t l s w') :
    World.step E w' (.bindGlobals l) = some (w'.setGlobals t l) := by
  obtain ⟨x, hx, ho, -⟩ := hj.joined.conn hj.reach.skel
  have hr : w'.ready l = some x :=
    ready_eq_some.mpr ⟨hx, by rw [ho, hj.frame, hi]⟩
  show (w'.ready l).map _ = _
  rw [hr, Option.map_some, ho]
  rfl

/-- An address that is the thread's own connection, or was before. -/
theorem setGlobals_cases {w : World} {l l' : Addr} {t' : ThreadId}
    (h : (w.setGlobals t l).threadSharedGlobals t' = some l') :
    t' = t ∧ l' = l ∨ t' ≠ t ∧ w.threadSharedGlobals t' = some l' := by
  change Function.update w.threadSharedGlobals t (some l) t' = _ at h
  by_cases ht : t' = t
  · rw [ht, Function.update_self] at h
    exact Or.inl ⟨ht, (Option.some.inj h).symm⟩
  · rw [Function.update_of_ne ht] at h
    exact Or.inr ⟨ht, h⟩

/-- What a RINIT that ended has found and done. -/
theorem rinit_some (h : p.rinit E t = some q) :
    p.world.frame t = .idle ∧ p.world.threadSharedGlobals t = none
      ∧ ∃ q', p.initThreadSharedGlobals E t = some q'
        ∧ q = { q' with
          inRequest := Function.update q'.inRequest t true } := by
  unfold rinit at h
  split at h
  case isTrue hc =>
    simp only [Bool.and_eq_true, Option.isNone_iff_eq_none] at hc
    obtain ⟨q', hq', rfl⟩ := Option.map_eq_some_iff.mp h
    exact ⟨isIdle_iff.mp hc.1.1, hc.2, q', hq', rfl⟩
  case isFalse => cases h

/-- What RINIT does. -/
theorem rinit_joins (hb : Bound E p) (h : p.rinit E t = some q) :
    ∃ l s w, Joins E p.world t l s w
      ∧ p.world.frame t = .idle ∧ p.world.threadSharedGlobals t = none
      ∧ q = ⟨w.setGlobals t l, some (p.globals.getD l),
          Function.update p.inRequest t true⟩
      ∧ (∀ g, p.globals = some g → p.world.tsOf g = some s)
      ∧ (p.globals = none → p.world.shared.get s = none) := by
  obtain ⟨hi, hn, q', hq', rfl⟩ := rinit_some h
  obtain ⟨l, s, w, hj, hinit, hold, hnew⟩ := initThreadSharedGlobals_spec hb
    hi fun g hg => connectable_of_init hb.world.skel hq' hg
  rw [hinit] at hq'
  rw [← Option.some.inj hq']
  exact ⟨l, s, w, hj, hi, hn, rfl, hold, hnew⟩

/-- The invariant over RINIT, -/
theorem Bound.rinit (hb : Bound E p) (h : p.rinit E t = some q) :
    Bound E q := by
  obtain ⟨l, s, w, hj, hi, hn, rfl, -, -⟩ := rinit_joins hb h
  have hkeep : ∀ {t'}, t' ≠ t → (w.setGlobals t l).threadSharedGlobals t'
      = p.world.threadSharedGlobals t' := by
    intro t' ht
    show Function.update w.threadSharedGlobals t _ t' = _
    rw [Function.update_of_ne ht, hj.globals]
  have hself : (w.setGlobals t l).threadSharedGlobals t = some l :=
    Function.update_self _ _ _
  refine ⟨hj.reach.after (setGlobals_step hi hj), fun {g} hg => ?_,
    fun {t' l'} ht' => ?_, fun {t'} ht' => ?_⟩
  · cases hp : p.globals with
    | none =>
        rw [hp] at hg
        exact ⟨t, hself.trans hg⟩
    | some g' =>
        rw [hp] at hg
        obtain ⟨t', ht'⟩ := hb.globals hp
        refine ⟨t', ?_⟩
        rw [hkeep, ht']
        · exact hg
        · intro htt
          rw [htt, hn] at ht'
          cases ht'
  · rcases setGlobals_cases ht' with ⟨rfl, rfl⟩ | ⟨-, hl⟩
    · exact ⟨s, hj.joined⟩
    · rw [hj.globals] at hl
      obtain ⟨s', hs'⟩ := hb.joined hl
      exact ⟨s', hj.kept hs'⟩
  · by_cases htt : t' = t
    · refine ⟨l, htt ▸ hself, ?_⟩
      show l ∉ (w.frame t').batch
      rw [htt, hj.frame, hi]
      exact List.not_mem_nil
    · change Function.update p.inRequest t true t' = true at ht'
      rw [Function.update_of_ne htt] at ht'
      obtain ⟨l', hl', hnot⟩ := hb.request ht'
      refine ⟨l', (hkeep htt).trans hl', ?_⟩
      show l' ∉ (w.frame t').batch
      rw [hj.frame]
      exact hnot

/-- RSHUTDOWN leaves the globals as they are. -/
theorem rshutdown_some (h : p.rshutdown t = some q) :
    q = { p with inRequest := Function.update p.inRequest t false } := by
  unfold rshutdown at h
  split at h
  case isTrue => exact (Option.some.inj h).symm
  case isFalse => cases h

/-- over RSHUTDOWN, -/
theorem Bound.rshutdown (hb : Bound E p) (h : p.rshutdown t = some q) :
    Bound E q := by
  rw [rshutdown_some h]
  refine ⟨hb.world, hb.globals, hb.joined, fun {t'} ht' => ?_⟩
  change Function.update p.inRequest t false t' = true at ht'
  by_cases htt : t' = t
  · rw [htt, Function.update_self] at ht'
    cases ht'
  · rw [Function.update_of_ne htt] at ht'
    exact hb.request ht'

/-- A step of the world, with what it frees. -/
theorem act_some {act : Act} (h : p.step E (.act act) = some q) :
    p.allows act = true ∧ ∃ w, p.world.step E act = some w
      ∧ q = ⟨w, p.globals.filter fun g => p.world.freedBy act != some g,
          p.inRequest⟩ := by
  by_cases ha : p.allows act = true
  · obtain ⟨w, hw, rfl⟩ := Option.map_eq_some_iff.mp
      ((if_pos ha).symm.trans h)
    exact ⟨ha, w, hw, rfl⟩
  · cases (if_neg ha).symm.trans h

theorem allows_bindGlobals {act : Act} (h : p.allows act = true) (a : Addr) :
    act ≠ .bindGlobals a := by
  rintro rfl
  cases h

/-- The object that a step frees belongs to the thread of the step, which
was about to free it. -/
theorem freedBy_batch {w : World} (hs : World.Skel w) {act : Act} {l : Addr}
    {s : TsAddr} (h : w.freedBy act = some l) (hj : Joined w t l s) :
    l ∈ (w.frame t).batch := by
  cases act with
  | baseFree u =>
      have hmem : l ∈ (w.frame u).batch := List.mem_of_mem_head? h
      have hfo := hs.frames u
      cases hf : w.frame u with
      | freeing batch =>
          rw [hf] at hmem hfo
          obtain ⟨z, -, hz, ho, -⟩ := hfo.2 l hmem
          obtain ⟨z', hz', ho', -⟩ := hj
          rw [hz] at hz'
          rw [← ho', ← Option.some.inj hz', ho, hf]
          exact hmem
      | _ =>
          rw [hf] at hmem
          cases hmem
  | _ => cases h

/-- A connection to the globals that is there after a step was there
before, and goes to the same array. -/
theorem act_kept (hb : Bound E p) {act : Act}
    (h : p.step E (.act act) = some q) {l : Addr}
    (hl : q.world.threadSharedGlobals t = some l) :
    p.world.threadSharedGlobals t = some l
      ∧ ∀ s, Joined p.world t l s → Joined q.world t l s := by
  obtain ⟨ha, w, hw, rfl⟩ := act_some h
  have hs := hb.world.skel
  change w.threadSharedGlobals t = some l at hl
  rw [step_globals hs hb.world.own hw (allows_bindGlobals ha)] at hl
  obtain ⟨hl, hfree⟩ := Option.filter_eq_some_iff.mp hl
  refine ⟨hl, fun s ⟨z, hz, ho, hts⟩ => ?_⟩
  rcases step_obj hs hw hz hts with ⟨u, batch, rfl, hf⟩ | ⟨z', hz', ho', h'⟩
  · have hhead : p.world.freedBy (.baseFree u) = some l := by
      show (p.world.frame u).batch.head? = some l
      rw [hf]
      rfl
    rw [hhead] at hfree
    exact absurd rfl (bne_iff_ne.mp hfree)
  · exact ⟨z', hz', ho'.trans ho, h'⟩

/-- over a step of the world, which may free the globals' last connection,
-/
theorem Bound.act (hb : Bound E p) {act : Act}
    (h : p.step E (.act act) = some q) : Bound E q := by
  obtain ⟨ha, w, hw, hq⟩ := act_some h
  have hs := hb.world.skel
  have hglob := step_globals hs hb.world.own hw (allows_bindGlobals ha)
  refine ⟨by rw [hq]; exact hb.world.after hw, fun {g} hg => ?_,
    fun {t l} hl => ?_, fun {t} ht => ?_⟩
  · rw [hq] at hg ⊢
    obtain ⟨hg, hfree⟩ := Option.filter_eq_some_iff.mp hg
    obtain ⟨t, ht⟩ := hb.globals hg
    refine ⟨t, ?_⟩
    rw [hglob, ht, Option.filter_some, if_pos hfree]
  · obtain ⟨hold, hkept⟩ := act_kept hb h hl
    obtain ⟨s, hj⟩ := hb.joined hold
    exact ⟨s, hkept s hj⟩
  · rw [hq] at ht ⊢
    obtain ⟨l, hl, hnot⟩ := hb.request ht
    obtain ⟨s, hj⟩ := hb.joined hl
    refine ⟨l, ?_, fun hmem => ?_⟩
    · show w.threadSharedGlobals t = some l
      rw [hglob, hl, Option.filter_some, if_pos]
      exact bne_iff_ne.mpr fun hf => hnot (freedBy_batch hs hf hj)
    · rcases batch_of_step hs hw hmem with hold | ⟨b, rfl, hlb⟩
      · exact hnot hold
      · -- RINIT's reference keeps the object reachable
        have hreq : p.inRequest t = true := ht
        have hall : (b.all fun a =>
            p.world.threadSharedGlobals t != some a) = true := by
          change (!p.inRequest t || _) = true at ha
          rw [hreq] at ha
          exact ha
        exact absurd hl (bne_iff_ne.mp (List.all_eq_true.mp hall l hlb))

/-- over any event, -/
theorem Bound.step (hb : Bound E p) {e : Event} (h : p.step E e = some q) :
    Bound E q := by
  cases e with
  | rinit t => exact hb.rinit h
  | rshutdown t => exact hb.rshutdown h
  | act a => exact hb.act h

/-- and over runs. -/
theorem Bound.run (es : List Event) (hb : Bound E p)
    (h : Process.run E p es = some q) : Bound E q :=
  foldlM_induct es (fun _ hp hs => hp.step hs) hb h

theorem Reachable.bound (h : Reachable E p) : Bound E p := by
  obtain ⟨es, hes⟩ := h
  exact bound_init.run es hes

-- ============================================================ the results

/-- RINIT of an idle thread ends, if the thread can initialise the class.
-/
theorem rinit_isSome (hb : Bound E p) (hi : p.world.frame t = .idle)
    (hn : p.world.threadSharedGlobals t = none)
    (hcls : ∀ g, p.globals = some g → p.world.initializes E t g = true) :
    (p.rinit E t).isSome = true := by
  have hreq : p.inRequest t = false := by
    by_contra h
    obtain ⟨l, hl, -⟩ := hb.request (Bool.not_eq_false _ ▸ h)
    rw [hn] at hl
    cases hl
  obtain ⟨l, s, w, -, hinit, -⟩ := initThreadSharedGlobals_spec hb hi
    fun g hg => Bool.or_eq_true_iff.mpr (Or.inr (hcls g hg))
  unfold rinit
  rw [if_pos, hinit]
  · rfl
  · rw [hi, hreq, hn]
    rfl

/-- In every state that any requests of any threads lead to, RINIT
succeeds on a thread whose last request is over, and a request has the
live connection of its thread for `Thread::getSharedGlobals`. The array is
a ThreadSafeArray, an internal class without constants, which a thread
can initialise. -/
theorem shared_globals_bound (E : Engine) {p : Process} (h : Reachable E p) :
    (∀ t, p.world.frame t = .idle → p.world.threadSharedGlobals t = none →
        (∀ g, p.globals = some g → p.world.initializes E t g = true) →
        (p.rinit E t).isSome = true)
      ∧ ∀ t, p.inRequest t = true →
        ∃ l x, p.world.threadSharedGlobals t = some l
          ∧ p.world.conn l = some x ∧ x.z.owner = t := by
  have hb := h.bound
  refine ⟨fun t hi hn hcls => rinit_isSome hb hi hn hcls, fun t ht => ?_⟩
  obtain ⟨l, hl, -⟩ := hb.request ht
  obtain ⟨s, hj⟩ := hb.joined hl
  obtain ⟨x, hx, ho, -⟩ := hj.conn hb.world.skel
  exact ⟨l, x, hl, hx, ho⟩

/-- Thread 1 starts the first request, thread 2 connects; the request of
thread 2 ends and its connection is freed. -/
def twoRequests : List Event :=
  [.rinit 1, .rinit 2, .rshutdown 2, .act (.release 2 [2]),
    .act (.baseFree 2)]

/-- Thread 2 can start again, thread 1 has the array still. -/
theorem shared_globals_bound_twoRequests :
    ∃ p l x, run (demoEngine .bump) init twoRequests = some p
      ∧ (p.rinit (demoEngine .bump) 2).isSome = true
      ∧ p.world.threadSharedGlobals 1 = some l
      ∧ p.world.conn l = some x ∧ x.z.owner = 1 := by
  have hview : (run (demoEngine .bump) init twoRequests).map (fun p =>
      (p.inRequest 1, (p.world.frame 2).isIdle,
        p.world.threadSharedGlobals 2)) = some (true, true, none) := by
    decide
  obtain ⟨p, hp, hv⟩ := Option.map_eq_some_iff.mp hview
  obtain ⟨h1, hv⟩ := Prod.mk.inj hv
  obtain ⟨h2, h3⟩ := Prod.mk.inj hv
  obtain ⟨hstart, hget⟩ :=
    shared_globals_bound (demoEngine .bump) ⟨twoRequests, hp⟩
  obtain ⟨l, x, hl, hx, ho⟩ := hget 1 h1
  have hcls : ∀ g, p.globals = some g →
      p.world.initializes (demoEngine .bump) 2 g = true := by
    intro g _
    unfold World.initializes
    cases p.world.birthOf g <;> rfl
  exact ⟨p, l, x, hp, hstart 2 (isIdle_iff.mp h2) h3 hcls, hl, hx, ho⟩

theorem agree_init : Agree init := by
  intro t t' l l' h
  cases h

/-- A RINIT is where agreement is lost: when the first thread's object is
gone, a second array is made while others still have the first. -/
theorem agree_rinit_iff (hb : Bound E p) (hag : Agree p)
    (h : p.rinit E t = some q) : Agree q ↔ p.NoSecond (.rinit t) := by
  obtain ⟨l, s, w, hj, hi, hn, rfl, hold, hnew⟩ := rinit_joins hb h
  have hself : (w.setGlobals t l).threadSharedGlobals t = some l :=
    Function.update_self _ _ _
  constructor
  · rintro hag' u hu hnone t'
    cases hl : p.world.threadSharedGlobals t' with
    | none => rfl
    | some l' =>
        -- the new array is not the one that is there
        have htt : t' ≠ t := by
          rintro rfl
          rw [hn] at hl
          cases hl
        have hl' : (w.setGlobals t l).threadSharedGlobals t' = some l' := by
          show Function.update w.threadSharedGlobals t _ t' = _
          rw [Function.update_of_ne htt, hj.globals, hl]
        obtain ⟨s', hj'⟩ := hb.joined hl
        have hss : w.tsOf l = w.tsOf l' := hag' t t' l l' hself hl'
        rw [hj.joined.tsOf, (hj.kept hj').tsOf] at hss
        obtain ⟨z, hz, -, hts⟩ := hj'
        obtain ⟨o, ho⟩ := hb.world.skel.tsLive hz hts
        rw [← Option.some.inj hss, hnew hnone] at ho
        cases ho
  · intro hno
    have hall : ∀ {t' l'}, (w.setGlobals t l).threadSharedGlobals t' = some l' →
        w.tsOf l' = some s := by
      intro t' l' hl'
      rcases setGlobals_cases hl' with ⟨-, rfl⟩ | ⟨-, hl⟩
      · exact hj.joined.tsOf
      · rw [hj.globals] at hl
        obtain ⟨s', hj'⟩ := hb.joined hl
        cases hg : p.globals with
        | none =>
            rw [hno t rfl hg t'] at hl
            cases hl
        | some g =>
            obtain ⟨t₀, ht₀⟩ := hb.globals hg
            have hss := hag t' t₀ l' g hl ht₀
            rw [hold g hg, hj'.tsOf] at hss
            rw [(hj.kept hj').tsOf, hss]
    intro t₁ t₂ l₁ l₂ h₁ h₂
    exact (hall h₁).trans (hall h₂).symm

/-- No other event changes it. -/
theorem agree_step_iff (hb : Bound E p) (hag : Agree p) {e : Event}
    (h : p.step E e = some q) : Agree q ↔ p.NoSecond e := by
  cases e with
  | rinit t => exact agree_rinit_iff hb hag h
  | rshutdown t =>
      rw [rshutdown_some h]
      exact iff_of_true hag fun u hu => by cases hu
  | act act =>
      refine iff_of_true ?_ fun u hu => by cases hu
      intro t₁ t₂ l₁ l₂ h₁ h₂
      obtain ⟨h₁, hk₁⟩ := act_kept hb h h₁
      obtain ⟨h₂, hk₂⟩ := act_kept hb h h₂
      obtain ⟨s₁, hj₁⟩ := hb.joined h₁
      obtain ⟨s₂, hj₂⟩ := hb.joined h₂
      rw [(hk₁ s₁ hj₁).tsOf, (hk₂ s₂ hj₂).tsOf, ← hj₁.tsOf, ← hj₂.tsOf]
      exact hag t₁ t₂ l₁ l₂ h₁ h₂

/-- So a run agrees throughout if no RINIT in it makes a second array, and
only then. -/
theorem agree_prefixes_iff (es : List Event) : ∀ {p : Process}, Bound E p →
    Agree p → (run E p es).isSome = true →
    ((∀ pre, pre <+: es → ∀ q, run E p pre = some q → Agree q)
      ↔ OneArray E p es) := by
  induction es with
  | nil =>
      intro p _ hag _
      refine iff_of_true (fun pre hpre q hq => ?_) trivial
      rw [List.prefix_nil.mp hpre] at hq
      rw [← Option.some.inj hq]
      exact hag
  | cons e es ih =>
      intro p hb hag hrun
      obtain ⟨r, hr⟩ := Option.isSome_iff_exists.mp hrun
      obtain ⟨q, hq, hr⟩ := foldlM_cons_iff.mp hr
      have htail : (run E q es).isSome = true :=
        Option.isSome_iff_exists.mpr ⟨r, hr⟩
      have hiff := agree_step_iff hb hag hq
      constructor
      · intro hall
        have hagq : Agree q := hall [e] ⟨es, rfl⟩ q
          (foldlM_cons_iff.mpr ⟨q, hq, rfl⟩)
        refine ⟨hiff.mp hagq, fun q' hq' => ?_⟩
        rw [← Option.some.inj (hq.symm.trans hq')]
        refine (ih (hb.step hq) hagq htail).mp fun pre hpre r' hr' => ?_
        exact hall (e :: pre) ((List.prefix_cons_inj e).mpr hpre) r'
          (foldlM_cons_iff.mpr ⟨q, hq, hr'⟩)
      · rintro ⟨hno, hrest⟩ pre hpre r' hr'
        cases pre with
        | nil =>
            rw [← Option.some.inj hr']
            exact hag
        | cons e' pre =>
            obtain ⟨rfl, htl⟩ := List.cons_prefix_cons.mp hpre
            obtain ⟨q', hq', hr'⟩ := foldlM_cons_iff.mp hr'
            rw [hq] at hq'
            rw [← Option.some.inj hq'] at hr'
            exact (ih (hb.step hq) (hiff.mpr hno) htail).mpr (hrest q hq)
              pre htl r' hr'

/-- For every run of any requests of any threads: `getSharedGlobals` is
one array for all threads in every state of the run if and only if no
request starts where the first array's own connection is gone and
another thread still is connected to it. -/
theorem shared_globals_agree_iff (E : Engine) (es : List Event) (p : Process)
    (h : run E init es = some p) :
    (∀ pre, pre <+: es → ∀ q, run E init pre = some q → Agree q)
      ↔ OneArray E init es :=
  agree_prefixes_iff es bound_init agree_init (by rw [h]; rfl)

/-- The first request is over while thread 2 is in one, and thread 3
starts. -/
def thirdRequest : List Event :=
  [.rinit 1, .rinit 2, .rshutdown 1, .act (.release 1 [1]),
    .act (.baseFree 1), .rinit 3]

/-- Thread 3 has an array of its own. -/
theorem shared_globals_agree_iff_thirdRequest :
    (∃ p, run (demoEngine .bump) init thirdRequest = some p)
      ∧ ¬ OneArray (demoEngine .bump) init thirdRequest := by
  have hview : (run (demoEngine .bump) init thirdRequest).map (fun p =>
      ((p.world.threadSharedGlobals 2).bind p.world.tsOf,
        (p.world.threadSharedGlobals 3).bind p.world.tsOf))
      = some (some 1, some 2) := by
    decide
  obtain ⟨p, hp, hv⟩ := Option.map_eq_some_iff.mp hview
  obtain ⟨h2, h3⟩ := Prod.mk.inj hv
  refine ⟨⟨p, hp⟩, fun hone => ?_⟩
  obtain ⟨l, hl, hl1⟩ := Option.bind_eq_some_iff.mp h2
  obtain ⟨l', hl', hl2⟩ := Option.bind_eq_some_iff.mp h3
  have hag := (shared_globals_agree_iff (demoEngine .bump) thirdRequest p
    hp).mpr hone thirdRequest List.prefix_rfl p hp 2 3 l l' hl hl'
  rw [hl1, hl2] at hag
  cases hag

end Process

end PmmpThread.Model
