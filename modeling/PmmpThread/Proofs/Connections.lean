/-
The bookkeeping of connections: reference counts, the global objects
table and the resolve tables, for every run of any number of threads.

`Skel` is the invariant. It reads nothing of an object but its owner
and its ts_obj, and nothing of a ts_obj but its reference count, so
every operation that changes only tables keeps it at once (`SameSkel`).
What is left are the four moves that change who is connected to what:
an allocation, a construction, a new connection, a free.

A `new` object is live, and in the objects table, from its allocation
on; it points to no ts_obj until its constructor ran.
-/
import PmmpThread.Proofs.Moves

namespace PmmpThread.Model.World

open Zend

variable {E : Engine} {t : ThreadId} {w w' : World}

/-- The live objects that point to `s`. -/
def pointsTo (s : TsAddr) (z : ZObj) : Bool := z.tsObj == some s

theorem pointsTo_iff {s : TsAddr} {z : ZObj} :
    pointsTo s z = true ↔ z.tsObj = some s := by
  unfold pointsTo
  exact beq_iff_eq

/-- What a thread's frame says about the objects it names. -/
def FrameOk (w : World) (t : ThreadId) : Frame → Prop
  | .idle => True
  | .allocated a _ _ =>
      ∃ z, w.mem.get a = some z ∧ z.owner = t ∧ z.tsObj = none
  | .fill c _ _ | .drop c _ =>
      ∃ z s, w.mem.get c = some z ∧ z.owner = t ∧ z.tsObj = some s
  | .freeing batch => batch.Nodup ∧ ∀ a ∈ batch,
      ∃ z s, w.mem.get a = some z ∧ z.owner = t ∧ z.tsObj = some s

/-- The bookkeeping invariant. -/
structure Skel (w : World) : Prop where
  objects : ∀ a, a ∈ w.objects ↔ (w.mem.get a).isSome = true
  tsLive : ∀ {a z s}, w.mem.get a = some z → z.tsObj = some s →
    ∃ o, w.shared.get s = some o
  refcount : ∀ {s o}, w.shared.get s = some o →
    o.refcount = w.mem.count (pointsTo s) ∧ 0 < o.refcount
  resolveLive : ∀ {t s a}, w.resolve t s = some a →
    ∃ z, w.mem.get a = some z ∧ z.owner = t ∧ z.tsObj = some s
  resolveAll : ∀ {a z s}, w.mem.get a = some z → z.tsObj = some s →
    w.resolve z.owner s = some a
  frames : ∀ t, FrameOk w t (w.frame t)
  connecting : ∀ t, w.connecting t = none

/-- There is nothing yet. -/
theorem skel_init : Skel init where
  objects a := by simp [init]
  tsLive h := by cases h
  refcount h := by cases h
  resolveLive h := by cases h
  resolveAll h := by cases h
  frames _ := trivial
  connecting _ := rfl

-- ================================================ tables may change

/-- The object that a thread is about to free. -/
theorem Skel.freeing (hs : Skel w) {o : Addr} {batch : List Addr}
    (hf : w.frame t = .freeing (o :: batch)) :
    ∃ s, w.tsOf o = some s ∧ w.resolve t s = some o
      ∧ ∃ ob, w.shared.get s = some ob := by
  have hfo := hs.frames t
  rw [hf] at hfo
  obtain ⟨z, s, hz, ho, hts⟩ := hfo.2 o List.mem_cons_self
  refine ⟨s, ?_, ho ▸ hs.resolveAll hz hts, hs.tsLive hz hts⟩
  exact (tsOf_of_get hz).trans hts

/-- The two worlds have the same skeleton. -/
structure SameSkel (w w' : World) : Prop where
  mem : ∀ a, (w'.mem.get a).map (fun z => (z.owner, z.tsObj))
    = (w.mem.get a).map fun z => (z.owner, z.tsObj)
  count : ∀ s, w'.mem.count (pointsTo s) = w.mem.count (pointsTo s)
  shared : ∀ s, (w'.shared.get s).map TsObj.refcount
    = (w.shared.get s).map TsObj.refcount
  objects : w'.objects = w.objects
  resolve : w'.resolve = w.resolve
  connecting : w'.connecting = w.connecting

theorem SameSkel.refl (w : World) : SameSkel w w :=
  ⟨fun _ => rfl, fun _ => rfl, fun _ => rfl, rfl, rfl, rfl⟩

theorem SameSkel.trans {u : World} (h : SameSkel w u) (h' : SameSkel u w') :
    SameSkel w w' where
  mem a := (h'.mem a).trans (h.mem a)
  count s := (h'.count s).trans (h.count s)
  shared s := (h'.shared s).trans (h.shared s)
  objects := h'.objects.trans h.objects
  resolve := h'.resolve.trans h.resolve
  connecting := h'.connecting.trans h.connecting

theorem SameSkel.symm (h : SameSkel w w') : SameSkel w' w where
  mem a := (h.mem a).symm
  count s := (h.count s).symm
  shared s := (h.shared s).symm
  objects := h.objects.symm
  resolve := h.resolve.symm
  connecting := h.connecting.symm

/-- Changing fields of one object other than its owner and ts_obj. -/
theorem sameSkel_modify (w : World) (c : Addr) (f : ZObj → ZObj)
    (hf : ∀ z, (f z).owner = z.owner ∧ (f z).tsObj = z.tsObj) :
    SameSkel w { w with mem := w.mem.modify c f } where
  mem a := by
    rw [Heap.get_modify]
    split
    · cases w.mem.get a with
      | none => rfl
      | some z => exact congrArg some (Prod.ext (hf z).1 (hf z).2)
    · rfl
  count s := Heap.count_modify_of_eq _ fun z => by
    unfold pointsTo
    rw [(hf z).2]
  shared _ := rfl
  objects := rfl
  resolve := rfl
  connecting := rfl

/-- What an operation on a store changes is no part of the bookkeeping: the
store, -/
theorem sameSkel_setStore (w : World) (s : TsAddr) (p : Store Storage) :
    SameSkel w (w.setStore s p) :=
  { SameSkel.refl w with
    shared := fun s' => by
      unfold setStore
      rw [Heap.get_modify]
      split
      · cases w.shared.get s' <;> rfl
      · rfl }

/-- a local table, -/
theorem sameSkel_setLocal (w : World) (c : Addr) (l : Local) :
    SameSkel w (w.setLocal c l) :=
  sameSkel_modify w c _ fun _ => ⟨rfl, rfl⟩

/-- both at once, -/
theorem sameSkel_commit (w : World) (c : Addr) (s : TsAddr)
    (r : Local × Store Storage) : SameSkel w (w.commit c s r) :=
  (sameSkel_setStore w s r.2).trans (sameSkel_setLocal _ c r.1)

/-- one cached value. -/
theorem sameSkel_updateLocalProperty (w : World) (c : Addr) (k : Key)
    (v : Zval) : SameSkel w (w.updateLocalProperty c k v) :=
  sameSkel_modify w c _ fun _ => ⟨rfl, rfl⟩

theorem SameSkel.get (h : SameSkel w w') {a : Addr} {z' : ZObj}
    (hz : w'.mem.get a = some z') :
    ∃ z, w.mem.get a = some z ∧ z.owner = z'.owner ∧ z.tsObj = z'.tsObj := by
  have hm := h.mem a
  rw [hz] at hm
  cases hz' : w.mem.get a with
  | none => rw [hz'] at hm; cases hm
  | some z =>
      rw [hz'] at hm
      have := Option.some.inj hm
      exact ⟨z, rfl, (Prod.mk.inj this).1.symm, (Prod.mk.inj this).2.symm⟩

/-- A frame survives when the objects it may name do. -/
theorem frameOk_mono {f : Frame} (hf : FrameOk w t f)
    (hmem : ∀ {a z}, w.mem.get a = some z → z.owner = t →
      ∃ z', w'.mem.get a = some z' ∧ z'.owner = z.owner
        ∧ z'.tsObj = z.tsObj) : FrameOk w' t f := by
  have hone : ∀ {a}, (∃ z s, w.mem.get a = some z ∧ z.owner = t
      ∧ z.tsObj = some s) → ∃ z s, w'.mem.get a = some z ∧ z.owner = t
        ∧ z.tsObj = some s := by
    intro a ⟨z, s, hz, ho, hs⟩
    obtain ⟨z', hz', ho', hs'⟩ := hmem hz ho
    exact ⟨z', s, hz', ho'.trans ho, hs'.trans hs⟩
  cases f with
  | idle => trivial
  | allocated a scope defaults =>
      obtain ⟨z, hz, ho, hs⟩ := hf
      obtain ⟨z', hz', ho', hs'⟩ := hmem hz ho
      exact ⟨z', hz', ho'.trans ho, hs'.trans hs⟩
  | fill c k v => exact hone hf
  | drop c k => exact hone hf
  | freeing batch => exact ⟨hf.1, fun a ha => hone (hf.2 a ha)⟩

theorem SameSkel.frameOk (h : SameSkel w w') {f : Frame}
    (hf : FrameOk w t f) : FrameOk w' t f :=
  frameOk_mono hf fun hz _ => h.symm.get hz

/-- The invariant depends on the skeleton and the frames alone. -/
theorem Skel.of_same (hs : Skel w) (h : SameSkel w w')
    (hf : ∀ t, FrameOk w' t (w'.frame t)) : Skel w' where
  objects a := by
    rw [h.objects, hs.objects a]
    have hm := congrArg Option.isSome (h.mem a)
    rw [Option.isSome_map, Option.isSome_map] at hm
    rw [hm]
  tsLive {a z' s} hz hts := by
    obtain ⟨z, hz', -, hts'⟩ := h.get hz
    obtain ⟨o, ho⟩ := hs.tsLive hz' (hts'.trans hts)
    have hsh := h.shared s
    rw [ho] at hsh
    obtain ⟨o', ho', -⟩ := Option.map_eq_some_iff.mp hsh
    exact ⟨o', ho'⟩
  refcount {s o} ho := by
    have hsh := h.shared s
    rw [ho] at hsh
    obtain ⟨o', ho', hr⟩ := Option.map_eq_some_iff.mp hsh.symm
    rw [h.count s, ← hr]
    exact hs.refcount ho'
  resolveLive hr := by
    rw [h.resolve] at hr
    obtain ⟨z, hz, ho, hts⟩ := hs.resolveLive hr
    obtain ⟨z', hz', ho', hts'⟩ := h.symm.get hz
    exact ⟨z', hz', ho'.trans ho, hts'.trans hts⟩
  resolveAll hz hts := by
    obtain ⟨z, hz', ho, hts'⟩ := h.get hz
    rw [h.resolve, ← ho]
    exact hs.resolveAll hz' (hts'.trans hts)
  frames := hf
  connecting t := by
    rw [h.connecting]
    exact hs.connecting t

/-- A new frame for one thread. -/
theorem Skel.setFrame (hs : Skel w) {f : Frame} (hf : FrameOk w t f) :
    Skel (w.setFrame t f) := by
  have hsame : SameSkel w (w.setFrame t f) :=
    ⟨fun _ => rfl, fun _ => rfl, fun _ => rfl, rfl, rfl, rfl⟩
  refine hs.of_same hsame fun t' => hsame.frameOk ?_
  by_cases ht : t' = t
  · rw [ht]
    show FrameOk w t (Function.update w.frame t f t)
    rw [Function.update_self]
    exact hf
  · show FrameOk w t' (Function.update w.frame t f t')
    rw [Function.update_of_ne ht]
    exact hs.frames t'

/-- Tables changed, frames did not. -/
theorem Skel.same (hs : Skel w) (h : SameSkel w w')
    (hf : w'.frame = w.frame) : Skel w' :=
  hs.of_same h fun t => by
    rw [hf]
    exact h.frameOk (hs.frames t)

-- =================================================== a new connection

theorem Skel.extends_frames (hs : Skel w) (h : Extends w w') (t : ThreadId) :
    FrameOk w' t (w'.frame t) := by
  rw [h.frame]
  refine frameOk_mono (hs.frames t) fun hz _ => ?_
  obtain ⟨l, hl⟩ := h.mem hz
  exact ⟨_, hl, rfl, rfl⟩

/-- A new connection is in all four tables at once. -/
theorem Skel.addConnection (hs : Skel w) {a : Addr} {z : ZObj} {s : TsAddr}
    (hz : w.mem.get a = some z) (hts : z.tsObj = some s)
    (hres : w.resolve t s = none)
    (hf : ∀ t', FrameOk (w.addConnection E t s z.declared) t'
      (w.frame t')) :
    Skel (w.addConnection E t s z.declared) where
  objects b := by
    show b ∈ w.objects.insert (w.mem.next E.object)
      ↔ ((w.mem.place _ _).get b).isSome = true
    rw [List.mem_insert_iff, hs.objects b, Heap.get_place]
    by_cases hb : b = w.mem.next E.object
    · simp [hb]
    · simp [hb]
  tsLive {b z' s'} hz' hts' := by
    have hlive : ∃ o, w.shared.get s' = some o := by
      change (w.mem.place _ _).get b = some z' at hz'
      rw [Heap.get_place] at hz'
      split at hz'
      · injection hz' with hz'
        rw [← hz'] at hts'
        rw [← Option.some.inj hts']
        exact hs.tsLive hz hts
      · exact hs.tsLive hz' hts'
    have := Heap.get_modify_isSome w.shared s s'
      fun o => { o with refcount := o.refcount + 1 }
    obtain ⟨o, ho⟩ := hlive
    rw [ho] at this
    exact Option.isSome_iff_exists.mp this
  refcount {s' o'} ho' := by
    change (w.shared.modify s _).get s' = some o' at ho'
    show o'.refcount = (w.mem.place _ _).count (pointsTo s') ∧ _
    rw [Heap.count_place _ _ (w.mem.get_next E.object)]
    rw [Heap.get_modify] at ho'
    by_cases hss : s' = s
    · rw [if_pos hss] at ho'
      obtain ⟨o, ho, hoo⟩ := Option.map_eq_some_iff.mp ho'
      have hp : pointsTo s' (w.connectionTo t s z.declared) = true :=
        pointsTo_iff.mpr (by rw [hss]; rfl)
      have := (hs.refcount ho).1
      rw [if_pos hp, ← hoo, ← this]
      exact ⟨rfl, Nat.succ_pos _⟩
    · rw [if_neg hss] at ho'
      have hp : ¬ pointsTo s' (w.connectionTo t s z.declared) = true := by
        intro hp
        exact hss (Option.some.inj (pointsTo_iff.mp hp)).symm
      rw [if_neg hp, Nat.add_zero]
      exact hs.refcount ho'
  resolveLive {t' s' b} hr := by
    change Function.update w.resolve t _ t' s' = some b at hr
    by_cases htt : t' = t ∧ s' = s
    · rw [htt.1, htt.2, Function.update_self, Function.update_self] at hr
      refine ⟨w.connectionTo t s z.declared, ?_, htt.1.symm, ?_⟩
      · rw [← Option.some.inj hr]
        exact Heap.get_place_self _ _ _
      · rw [htt.2]
        rfl
    · have hr' : w.resolve t' s' = some b := by
        by_cases ht : t' = t
        · have hss : s' ≠ s := fun h => htt ⟨ht, h⟩
          rw [ht, Function.update_self, Function.update_of_ne hss] at hr
          rw [ht]
          exact hr
        · rw [Function.update_of_ne ht] at hr
          exact hr
      obtain ⟨z', hz', ho', hts'⟩ := hs.resolveLive hr'
      refine ⟨z', ?_, ho', hts'⟩
      show (w.mem.place _ _).get b = some z'
      rw [Heap.get_place, if_neg (Heap.ne_next_of_get hz')]
      exact hz'
  resolveAll {b z' s'} hz' hts' := by
    change (w.mem.place _ _).get b = some z' at hz'
    show Function.update w.resolve t _ z'.owner s' = some b
    rw [Heap.get_place] at hz'
    by_cases hb : b = w.mem.next E.object
    · rw [if_pos hb] at hz'
      rw [← Option.some.inj hz'] at hts' ⊢
      have hss : s' = s := (Option.some.inj hts').symm
      rw [hss, hb]
      show Function.update w.resolve t _ t s = _
      rw [Function.update_self, Function.update_self]
    · rw [if_neg hb] at hz'
      have hr := hs.resolveAll hz' hts'
      by_cases ht : z'.owner = t
      · by_cases hss : s' = s
        · rw [ht, hss, hres] at hr
          cases hr
        · rw [ht] at hr ⊢
          rw [Function.update_self, Function.update_of_ne hss]
          exact hr
      · rw [Function.update_of_ne ht]
        exact hr
  frames := hf
  connecting := hs.connecting

theorem Skel.growStep (hs : Skel w) (h : GrowStep E t w w') : Skel w' := by
  have hf := hs.extends_frames h.extends
  cases h with
  | string b =>
      exact hs.of_same
        ⟨fun _ => rfl, fun _ => rfl, fun _ => rfl, rfl, rfl, rfl⟩ hf
  | closure cl =>
      exact hs.of_same
        ⟨fun _ => rfl, fun _ => rfl, fun _ => rfl, rfl, rfl, rfl⟩ hf
  | connection _ hz _ hts hres _ => exact hs.addConnection hz hts hres hf

/-- So the invariant holds over additions, -/
theorem Skel.grow (hs : Skel w) (h : Grow E t w w') : Skel w' := by
  induction h with
  | refl => exact hs
  | tail _ h ih => exact ih.growStep h

/-- and over syncs. -/
theorem Skel.syncs {own : ThreadId → Prop} (hs : Skel w)
    (h : Syncs E t own w w') : Skel w' := by
  induction h with
  | refl => exact hs
  | grow _ hg ih => exact (ih hs).growStep hg
  | sync _ _ _ ih => exact (ih hs).same (sameSkel_setLocal _ _ _) rfl
  | @put w u u₁ u₂ c x k st r _ _ _ _ _ _ hr _ _ _ ih ih' =>
      have hg := grow_of_restored hr ((ih hs).connecting t)
      exact (ih' ((ih hs).grow hg)).same
        (sameSkel_modify u₂ c _ fun _ => ⟨rfl, rfl⟩) rfl

-- ============================================ allocation, construction

/-- A new object points nowhere yet. -/
theorem Skel.objectAlloc (hs : Skel w) (declared : List Key) :
    Skel (w.objectAlloc E t declared).2 where
  objects b := by
    show b ∈ w.objects.insert (w.mem.next E.object)
      ↔ ((w.mem.place _ _).get b).isSome = true
    rw [List.mem_insert_iff, hs.objects b, Heap.get_place]
    by_cases hb : b = w.mem.next E.object
    · simp [hb]
    · simp [hb]
  tsLive {b z s} hz hts := by
    change (w.mem.place _ _).get b = some z at hz
    rw [Heap.get_place] at hz
    split at hz
    · rw [← Option.some.inj hz] at hts
      cases hts
    · exact hs.tsLive hz hts
  refcount {s o} ho := by
    show o.refcount = (w.mem.place _ _).count (pointsTo s) ∧ _
    rw [Heap.count_place _ _ (w.mem.get_next E.object)]
    exact hs.refcount ho
  resolveLive hr := by
    obtain ⟨z, hz, ho, hts⟩ := hs.resolveLive hr
    refine ⟨z, ?_, ho, hts⟩
    show (w.mem.place _ _).get _ = some z
    rw [Heap.get_place, if_neg (Heap.ne_next_of_get hz)]
    exact hz
  resolveAll {b z s} hz hts := by
    change (w.mem.place _ _).get b = some z at hz
    rw [Heap.get_place] at hz
    split at hz
    · rw [← Option.some.inj hz] at hts
      cases hts
    · exact hs.resolveAll hz hts
  frames t' := frameOk_mono (hs.frames t') fun {b z} hz _ => by
    refine ⟨z, ?_, rfl, rfl⟩
    show (w.mem.place _ _).get _ = some z
    rw [Heap.get_place, if_neg (Heap.ne_next_of_get hz)]
    exact hz
  connecting := hs.connecting

/-- A fresh ts_obj has no connection. -/
theorem Skel.not_pointsTo (hs : Skel w) {s : TsAddr}
    (h : w.shared.get s = none) {a : Addr} {z : ZObj}
    (hz : w.mem.get a = some z) : z.tsObj ≠ some s := by
  intro hts
  obtain ⟨o, ho⟩ := hs.tsLive hz hts
  rw [h] at ho
  cases ho

/-- Nothing points to a `ts_obj` that is gone, -/
theorem Skel.count_eq_zero (hs : Skel w) {s : TsAddr}
    (h : w.shared.get s = none) : w.mem.count (pointsTo s) = 0 :=
  Heap.count_eq_zero fun hz => by
    by_contra hp
    rw [Bool.not_eq_false] at hp
    exact hs.not_pointsTo h hz (pointsTo_iff.mp hp)

/-- no table of a thread does. -/
theorem Skel.resolve_none (hs : Skel w) {s : TsAddr}
    (h : w.shared.get s = none) : w.resolve t s = none := by
  cases hr : w.resolve t s with
  | none => rfl
  | some a =>
      obtain ⟨z, hz, -, hts⟩ := hs.resolveLive hr
      exact absurd hts (hs.not_pointsTo h hz)

/-- The world after `pmmpthread_ts_object_ctor` with the new object
already in the resolve table. -/
def constructed (E : Engine) (w : World) (t : ThreadId) (a : Addr)
    (scope : Scope) : World :=
  { w.tsObjectCtor E t a scope with
    resolve := Function.update w.resolve t
      (Function.update (w.resolve t) (w.shared.next E.shared) (some a)) }

/-- A construction makes the first connection, -/
theorem Skel.constructed (hs : Skel w) {a : Addr} {z : ZObj} {scope : Scope}
    (hz : w.mem.get a = some z) (ho : z.owner = t) (hts : z.tsObj = none)
    (hf : ∀ t', FrameOk (w.constructed E t a scope) t'
      ((w.constructed E t a scope).frame t')) :
    Skel (w.constructed E t a scope) where
  objects b := by
    show b ∈ w.objects ↔ ((w.mem.modify a _).get b).isSome = true
    rw [Heap.get_modify_isSome]
    exact hs.objects b
  tsLive {b z' s'} hz' hts' := by
    change (w.mem.modify a _).get b = some z' at hz'
    show ∃ o, (w.shared.place _ _).get s' = some o
    rw [Heap.get_place]
    split
    · exact ⟨_, rfl⟩
    case isFalse hne =>
      rw [Heap.get_modify] at hz'
      split at hz'
      · obtain ⟨z'', -, hzz⟩ := Option.map_eq_some_iff.mp hz'
        rw [← hzz] at hts'
        exact absurd (Option.some.inj hts').symm hne
      · exact hs.tsLive hz' hts'
  refcount {s' o'} ho' := by
    change (w.shared.place _ _).get s' = some o' at ho'
    show o'.refcount = (w.mem.modify a _).count (pointsTo s') ∧ _
    have hc := Heap.count_modify (pointsTo s') w.mem a
      fun z => { z with tsObj := some (w.shared.next E.shared) }
    rw [hz] at hc
    have hp : pointsTo s' z = false := by
      unfold pointsTo
      rw [hts]
      rfl
    simp only [Option.any_some, Option.map_some, hp, Bool.false_eq_true,
      if_false, Nat.add_zero] at hc
    rw [Heap.get_place] at ho'
    rw [hc]
    by_cases hss : s' = w.shared.next E.shared
    · rw [if_pos hss] at ho'
      have hp' : pointsTo s'
          { z with tsObj := some (w.shared.next E.shared) } = true :=
        pointsTo_iff.mpr (by rw [hss])
      rw [if_pos hp', ← Option.some.inj ho', hss,
        hs.count_eq_zero (w.shared.get_next E.shared)]
      exact ⟨rfl, Nat.one_pos⟩
    · rw [if_neg hss] at ho'
      have hp' : ¬ pointsTo s'
          { z with tsObj := some (w.shared.next E.shared) } = true := fun h =>
        hss (Option.some.inj (pointsTo_iff.mp h)).symm
      rw [if_neg hp', Nat.add_zero]
      exact hs.refcount ho'
  resolveLive {t' s' b} hr := by
    change Function.update w.resolve t _ t' s' = some b at hr
    show ∃ z', (w.mem.modify a _).get b = some z' ∧ _
    by_cases htt : t' = t ∧ s' = w.shared.next E.shared
    · rw [htt.1, htt.2, Function.update_self, Function.update_self] at hr
      rw [← Option.some.inj hr, Heap.get_modify_self, hz]
      exact ⟨_, rfl, ho.trans htt.1.symm, by rw [htt.2]⟩
    · have hr' : w.resolve t' s' = some b := by
        by_cases ht : t' = t
        · have hss : s' ≠ w.shared.next E.shared := fun h => htt ⟨ht, h⟩
          rw [ht, Function.update_self, Function.update_of_ne hss] at hr
          rw [ht]
          exact hr
        · rw [Function.update_of_ne ht] at hr
          exact hr
      obtain ⟨z', hz', ho', hts'⟩ := hs.resolveLive hr'
      have hb : b ≠ a := by
        intro hb
        rw [hb, hz] at hz'
        rw [← Option.some.inj hz', hts] at hts'
        cases hts'
      rw [Heap.get_modify_ne _ _ hb]
      exact ⟨z', hz', ho', hts'⟩
  resolveAll {b z' s'} hz' hts' := by
    change (w.mem.modify a _).get b = some z' at hz'
    show Function.update w.resolve t _ z'.owner s' = some b
    rw [Heap.get_modify] at hz'
    by_cases hb : b = a
    · rw [if_pos hb, hb, hz] at hz'
      rw [← Option.some.inj hz'] at hts' ⊢
      rw [← Option.some.inj hts', hb]
      show Function.update w.resolve t _ z.owner _ = _
      rw [ho, Function.update_self, Function.update_self]
    · rw [if_neg hb] at hz'
      have hr := hs.resolveAll hz' hts'
      by_cases ht : z'.owner = t
      · have hss : s' ≠ w.shared.next E.shared := by
          intro hss
          rw [hss, hs.resolve_none (w.shared.get_next E.shared)] at hr
          cases hr
        rw [ht] at hr ⊢
        rw [Function.update_self, Function.update_of_ne hss]
        exact hr
      · rw [Function.update_of_ne ht]
        exact hr
  frames := hf
  connecting := hs.connecting

theorem writeLocked_some {c : Addr} {key : Option Key} {v : Zval}
    {r : Key × World} (h : w.writeLocked c key v = some r) :
    ∃ x st, w.conn c = some x ∧ w.saveZval x.z.owner v = some st
      ∧ r = (x.o.props.member key, w.commit c x.s
        (w.writeStore x.z.owner x.z.loc x.o.props key st).2) := by
  cases hx : w.conn c with
  | some x =>
      rw [writeLocked_eq hx] at h
      obtain ⟨st, hst, h⟩ := Option.map_eq_some_iff.mp h
      exact ⟨x, st, rfl, hst, h.symm⟩
  | none =>
      exfalso
      unfold conn at hx
      unfold writeLocked at h
      cases hz : w.mem.get c with
      | none => rw [hz] at h; cases h
      | some z =>
          cases hs : z.tsObj with
          | none => simp only [hz, hs] at h; cases h
          | some s =>
              simp only [hz, hs, Option.map_eq_none_iff] at hx h
              rw [hx] at h
              cases h

/-- What holds before the defaults are written and is kept by one write
holds after all of them. -/
theorem writePropertyDefaults_induct {P : World → Prop} {c : Addr}
    (defaults : List (List Default))
    (hw : ∀ {u : World} {k v r}, (k, v) ∈ defaults.flatten → P u →
      u.writeLocked c (some k) v = some r →
      P (r.2.updateLocalProperty c r.1 v))
    (h : P w) : P (w.writePropertyDefaults c defaults) := by
  have hclass : ∀ (d : List Default) (u : World),
      (∀ kv ∈ d, kv ∈ defaults.flatten) → P u →
      P (u.writeClassDefaults c d) := by
    intro d
    induction d with
    | nil => intro u _ hu; exact hu
    | cons kv d ih =>
        intro u hd hu
        obtain ⟨k, v⟩ := kv
        have hrest := fun kv h => hd kv (List.mem_cons_of_mem _ h)
        unfold writeClassDefaults
        split
        · exact ih u hrest hu
        · split
          case h_1 u' hu' =>
            obtain ⟨r, hr, rfl⟩ := Option.map_eq_some_iff.mp hu'
            exact ih _ hrest (hw (hd _ List.mem_cons_self) hu hr)
          case h_2 => exact hu
  have hall : ∀ (ds : List (List Default)) (u : World),
      (∀ d ∈ ds, d ∈ defaults) → P u → P (u.writePropertyDefaults c ds) := by
    intro ds
    induction ds with
    | nil => intro u _ hu; exact hu
    | cons d ds ih =>
        intro u hds hu
        refine ih _ (fun d h => hds d (List.mem_cons_of_mem _ h)) ?_
        exact hclass d u (fun kv h => List.mem_flatten.mpr
          ⟨d, hds d List.mem_cons_self, h⟩) hu
  exact hall defaults w (fun _ h => h) h

theorem sameSkel_writePropertyDefaults (w : World) (c : Addr)
    (defaults : List (List Default)) :
    SameSkel w (w.writePropertyDefaults c defaults)
      ∧ (w.writePropertyDefaults c defaults).frame = w.frame := by
  refine writePropertyDefaults_induct (P := fun u => SameSkel w u
    ∧ u.frame = w.frame) defaults ?_ ⟨.refl w, rfl⟩
  intro u k v r _ hu hr
  obtain ⟨x, st, -, -, rfl⟩ := writeLocked_some hr
  exact ⟨(hu.1.trans (sameSkel_commit u c x.s _)).trans
    (sameSkel_updateLocalProperty _ c _ v), hu.2⟩

/-- A plain construction leaves the skeleton of `constructed`. -/
theorem baseCtor_same (hs : Skel w) {a : Addr} {z : ZObj} {scope : Scope}
    {defaults : List (List Default)} (hz : w.mem.get a = some z)
    (h : w.baseCtor E t a scope defaults = some w') :
    SameSkel (w.constructed E t a scope) w' ∧ w'.frame = w.frame := by
  unfold baseCtor at h
  rw [hs.connecting t] at h
  injection h with h
  obtain ⟨hsame, hframe⟩ := sameSkel_writePropertyDefaults
    (w.tsObjectCtor E t a scope) a defaults
  generalize (w.tsObjectCtor E t a scope).writePropertyDefaults a defaults
    = u at h hsame hframe
  have hget : (w.tsObjectCtor E t a scope).mem.get a
      = some { z with tsObj := some (w.shared.next E.shared) } := by
    show (w.mem.modify a _).get a = _
    rw [Heap.get_modify_self, hz]
    rfl
  obtain ⟨zu, hzu, -, htsu⟩ := hsame.symm.get hget
  have hts : u.tsOf a = some (w.shared.next E.shared) :=
    (tsOf_of_get hzu).trans htsu
  have hres : u.resolve t (w.shared.next E.shared) = none := by
    rw [hsame.resolve]
    exact hs.resolve_none (w.shared.get_next E.shared)
  unfold registerObject at h
  rw [hts] at h
  simp only [hres] at h
  rw [← h]
  have hmod := sameSkel_modify u a (fun z => { z with
    loc := { z.loc with modcount := (((u.shared.get
      (w.shared.next E.shared)).map fun o => o.props.modcount).getD 0) - 1 } })
    fun _ => ⟨rfl, rfl⟩
  refine ⟨⟨fun b => (hmod.mem b).trans (hsame.mem b),
    fun s => (hmod.count s).trans (hsame.count s), hsame.shared,
    hsame.objects, ?_, hsame.connecting⟩, hframe⟩
  show Function.update u.resolve t (Function.update (u.resolve t) _ _) = _
  rw [hsame.resolve]
  rfl

/-- and writes the defaults through it. -/
theorem Skel.baseCtor (hs : Skel w) {a : Addr} {scope : Scope}
    {defaults : List (List Default)}
    (hf : w.frame t = .allocated a scope defaults)
    (h : w.baseCtor E t a scope defaults = some w') :
    Skel (w'.setFrame t .idle) := by
  have hfo := hs.frames t
  rw [hf] at hfo
  obtain ⟨z, hz, ho, hts⟩ := hfo
  obtain ⟨hsame, hframe⟩ := baseCtor_same hs hz h
  have hmem : ∀ {b zb}, w.mem.get b = some zb → b ≠ a →
      (w.constructed E t a scope).mem.get b = some zb := fun hb hne =>
    (Heap.get_modify_ne _ _ hne).trans hb
  -- the frame of `t` names the object under construction, so the
  -- invariant is assembled for the idle frame
  have hfr : ∀ t', t' ≠ t → FrameOk (w.constructed E t a scope) t'
      (w.frame t') := fun t' ht' =>
    frameOk_mono (hs.frames t') fun {b zb} hb hbo => by
      have hne : b ≠ a := by
        intro hba
        rw [hba, hz] at hb
        rw [← Option.some.inj hb, ho] at hbo
        exact ht' hbo.symm
      exact ⟨zb, hmem hb hne, rfl, rfl⟩
  have hskel : Skel ((w.setFrame t .idle).constructed E t a scope) := by
    refine (hs.setFrame (f := .idle) trivial).constructed hz ho hts ?_
    intro t'
    show FrameOk _ t' (Function.update w.frame t .idle t')
    by_cases ht' : t' = t
    · rw [ht', Function.update_self]
      trivial
    · rw [Function.update_of_ne ht']
      exact hfr t' ht'
  have hsame' : SameSkel ((w.setFrame t .idle).constructed E t a scope)
      (w'.setFrame t .idle) :=
    ⟨hsame.mem, hsame.count, hsame.shared, hsame.objects, hsame.resolve,
      hsame.connecting⟩
  refine hskel.same hsame' ?_
  show Function.update w'.frame t .idle = Function.update w.frame t .idle
  rw [hframe]

-- ============================================================== a free

/-- What a free leaves in the heap of ts_objs when it was not the last
connection. -/
def persisted (w : World) (t : ThreadId) (s : TsAddr) (o : TsObj) :
    Heap TsObj :=
  (w.shared.modify s fun o' => { o' with refcount := o.refcount - 1 }).modify
    s fun o' => { o' with props := { o.props with
      hash := o.props.hash.mapVal (w.persistStorage t) } }

/-- The connections to the shared globals without that at `a`. -/
def globalsWithout (w : World) (t : ThreadId) (a : Addr) :
    ThreadId → Option Addr :=
  if w.threadSharedGlobals t = some a then
    Function.update w.threadSharedGlobals t none
  else w.threadSharedGlobals

/-- The world after a free. -/
def freed (w : World) (t : ThreadId) (a : Addr) (s : TsAddr)
    (g : ThreadId → Option Addr) (shared : Heap TsObj) : World :=
  { w with
    mem := w.mem.free a
    objects := w.objects.filter (· ≠ a)
    resolve := Function.update w.resolve t
      (Function.update (w.resolve t) s none)
    threadSharedGlobals := g
    shared := shared }

/-- The two ways a free of a primary connection ends. -/
theorem baseFree_cases {a : Addr} {s : TsAddr} {o : TsObj}
    (hts : w.tsOf a = some s) (ho : w.shared.get s = some o)
    (hres : w.resolve t s = some a) (h : w.baseFree t a = some w') :
    o.refcount - 1 = 0
        ∧ w' = w.freed t a s (w.globalsWithout t a) (w.shared.free s)
      ∨ o.refcount - 1 ≠ 0
        ∧ (∀ e ∈ o.props.hash.entries, w.danglesFor t e.2 = false)
        ∧ w' = w.freed t a s (w.globalsWithout t a) (w.persisted t s o) := by
  have hg : (w.dropResolve t s a).dropGlobals t a
      = { w with
          resolve := Function.update w.resolve t
            (Function.update (w.resolve t) s none)
          threadSharedGlobals := w.globalsWithout t a } := by
    unfold dropGlobals dropResolve globalsWithout
    rw [if_pos hres]
    split
    · rfl
    · rfl
  unfold baseFree at h
  simp only [hts, hg, ho] at h
  by_cases hn : o.refcount - 1 = 0
  · rw [if_pos hn] at h
    exact Or.inl ⟨hn, (Option.some.inj h).symm⟩
  · rw [if_neg hn] at h
    obtain ⟨v, hv, hd⟩ := Option.map_eq_some_iff.mp h
    have hget : (w.shared.modify s fun o' =>
        { o' with refcount := o.refcount - 1 }).get s
        = some { o with refcount := o.refcount - 1 } := by
      rw [Heap.get_modify_self, ho]
      rfl
    unfold persistLocalProperties setRefcount at hv
    simp only [hget] at hv
    split at hv
    case isTrue => cases hv
    case isFalse hnd =>
      refine Or.inr ⟨hn, fun e he => ?_, ?_⟩
      · by_contra hdang
        rw [Bool.not_eq_false] at hdang
        exact hnd (List.any_eq_true.mpr ⟨e, he, hdang⟩)
      · rw [← hd, ← Option.some.inj hv]
        rfl

/-- A free that is not the last makes the thread's strings the store's own
and takes one reference. -/
theorem get_persisted {s s' : TsAddr} {o : TsObj}
    (ho : w.shared.get s = some o) :
    (w.persisted t s o).get s'
      = if s' = s then some { o with
          refcount := o.refcount - 1
          props := { o.props with
            hash := o.props.hash.mapVal (w.persistStorage t) } }
        else w.shared.get s' := by
  unfold persisted
  by_cases hs : s' = s
  · rw [if_pos hs, hs, Heap.get_modify_self, Heap.get_modify_self, ho]
    rfl
  · rw [if_neg hs, Heap.get_modify_ne _ _ hs, Heap.get_modify_ne _ _ hs]

/-- The bookkeeping after a free, for the ts_objs that it leaves. -/
theorem Skel.freed (hs : Skel w) {a : Addr} {z : ZObj} {s : TsAddr}
    {g : ThreadId → Option Addr} {shared : Heap TsObj}
    (hz : w.mem.get a = some z) (ho : z.owner = t) (hts : z.tsObj = some s)
    (hother : ∀ s', s' ≠ s → shared.get s' = w.shared.get s')
    (hself : ∀ o', shared.get s = some o' →
      o'.refcount + 1 = w.mem.count (pointsTo s) ∧ 0 < o'.refcount)
    (hlast : shared.get s = none → w.mem.count (pointsTo s) = 1)
    (hf : ∀ t', FrameOk (w.freed t a s g shared) t' (w.frame t')) :
    Skel (w.freed t a s g shared) := by
  have hcount : ∀ s', (w.mem.free a).count (pointsTo s')
      + (if s' = s then 1 else 0) = w.mem.count (pointsTo s') := by
    intro s'
    have hc := Heap.count_free (pointsTo s') w.mem a
    rw [hz, Option.any_some] at hc
    by_cases hss : s' = s
    · rw [if_pos hss]
      rw [if_pos (pointsTo_iff.mpr (by rw [hss]; exact hts))] at hc
      exact hc
    · rw [if_neg hss]
      rw [if_neg fun hp => hss (Option.some.inj
        (hts.symm.trans (pointsTo_iff.mp hp))).symm] at hc
      exact hc
  have hget : ∀ {b z'}, (w.mem.free a).get b = some z' →
      b ≠ a ∧ w.mem.get b = some z' := by
    intro b z' hb
    rw [Heap.get_free] at hb
    split at hb
    · cases hb
    case isFalse hne => exact ⟨hne, hb⟩
  refine ⟨fun b => ?_, fun {b z' s'} hz' hts' => ?_, fun {s' o'} ho' => ?_,
    fun {t' s' b} hr => ?_, fun {b z' s'} hz' hts' => ?_, hf, hs.connecting⟩
  · show b ∈ w.objects.filter _ ↔ ((w.mem.free a).get b).isSome = true
    rw [List.mem_filter, hs.objects b, Heap.get_free]
    by_cases hb : b = a
    · simp [hb]
    · simp [hb]
  · obtain ⟨hne, hz'⟩ := hget hz'
    show ∃ o, shared.get s' = some o
    by_cases hss : s' = s
    · -- another object still points to `s`
      rw [hss] at hts' ⊢
      cases hsh : shared.get s with
      | some o => exact ⟨o, rfl⟩
      | none =>
          exfalso
          have h1 := hlast hsh
          have h2 := hcount s
          rw [if_pos rfl, h1] at h2
          have h3 : (w.mem.free a).get b = some z' := by
            rw [Heap.get_free, if_neg hne]
            exact hz'
          have := Heap.count_pos h3 (pointsTo_iff.mpr hts')
          omega
    · rw [hother s' hss]
      exact hs.tsLive hz' hts'
  · show o'.refcount = (w.mem.free a).count (pointsTo s') ∧ _
    have hc := hcount s'
    by_cases hss : s' = s
    · rw [if_pos hss] at hc
      rw [hss] at ho' hc ⊢
      have := hself o' ho'
      omega
    · rw [if_neg hss] at hc
      change shared.get s' = some o' at ho'
      rw [hother s' hss] at ho'
      rw [show (w.mem.free a).count (pointsTo s')
        = w.mem.count (pointsTo s') by omega]
      exact hs.refcount ho'
  · change Function.update w.resolve t _ t' s' = some b at hr
    have hr' : w.resolve t' s' = some b ∧ ¬ (t' = t ∧ s' = s) := by
      by_cases ht : t' = t
      · by_cases hss : s' = s
        · rw [ht, hss, Function.update_self, Function.update_self] at hr
          cases hr
        · rw [ht, Function.update_self, Function.update_of_ne hss] at hr
          rw [ht]
          exact ⟨hr, fun h => hss h.2⟩
      · rw [Function.update_of_ne ht] at hr
        exact ⟨hr, fun h => ht h.1⟩
    obtain ⟨z', hz', ho', hts'⟩ := hs.resolveLive hr'.1
    refine ⟨z', ?_, ho', hts'⟩
    show (w.mem.free a).get b = some z'
    rw [Heap.get_free, if_neg ?_]
    · exact hz'
    · intro hb
      rw [hb, hz] at hz'
      rw [← Option.some.inj hz'] at ho' hts'
      exact hr'.2 ⟨ho'.symm.trans ho, Option.some.inj (hts'.symm.trans hts)⟩
  · obtain ⟨hne, hz'⟩ := hget hz'
    show Function.update w.resolve t _ z'.owner s' = some b
    have hr := hs.resolveAll hz' hts'
    by_cases ht : z'.owner = t
    · by_cases hss : s' = s
      · have hra := hs.resolveAll hz hts
        rw [ht, hss] at hr
        rw [ho, hr] at hra
        exact absurd (Option.some.inj hra) hne
      · rw [ht] at hr ⊢
        rw [Function.update_self, Function.update_of_ne hss]
        exact hr
    · rw [Function.update_of_ne ht]
      exact hr

/-- A free takes the connection out of all four tables; the last one takes
the `ts_obj` along. -/
theorem Skel.baseFree (hs : Skel w) {a : Addr} {batch : List Addr}
    (hf : w.frame t = .freeing (a :: batch))
    (h : w.baseFree t a = some w') :
    Skel (w'.setFrame t
      (if batch.isEmpty then .idle else .freeing batch)) := by
  have hfo := hs.frames t
  rw [hf] at hfo
  obtain ⟨hnd, hall⟩ := hfo
  obtain ⟨hnot, hnd⟩ := List.nodup_cons.mp hnd
  obtain ⟨z, s, hz, ho, hts⟩ := hall a List.mem_cons_self
  obtain ⟨o, hso⟩ := hs.tsLive hz hts
  obtain ⟨hcount, hpos⟩ := hs.refcount hso
  have hres : w.resolve t s = some a := ho ▸ hs.resolveAll hz hts
  have htsOf : w.tsOf a = some s :=
    (tsOf_of_get hz).trans hts
  -- take the freed object out of the thread's frame first
  have hs' : Skel (w.setFrame t
      (if batch.isEmpty then .idle else .freeing batch)) := by
    refine hs.setFrame ?_
    split
    · trivial
    · exact ⟨hnd, fun b hb => hall b (List.mem_cons_of_mem _ hb)⟩
  have hframes : ∀ g shared t', FrameOk (w.freed t a s g shared) t'
      ((w.setFrame t
        (if batch.isEmpty then .idle else .freeing batch)).frame t') := by
    intro g shared t'
    have hmem : ∀ {b zb}, w.mem.get b = some zb → b ≠ a →
        ∃ z', (w.freed t a s g shared).mem.get b = some z'
          ∧ z'.owner = zb.owner ∧ z'.tsObj = zb.tsObj := by
      intro b zb hb hne
      refine ⟨zb, ?_, rfl, rfl⟩
      show (w.mem.free a).get b = some zb
      rw [Heap.get_free, if_neg hne]
      exact hb
    show FrameOk _ t' (Function.update w.frame t _ t')
    by_cases ht : t' = t
    · rw [ht, Function.update_self]
      split
      · trivial
      · refine ⟨hnd, fun b hb => ?_⟩
        obtain ⟨zb, sb, hzb, hob, hsb⟩ := hall b (List.mem_cons_of_mem _ hb)
        have hne : b ≠ a := fun hba => hnot (hba ▸ hb)
        obtain ⟨z', hz', ho', hs'⟩ := hmem hzb hne
        exact ⟨z', sb, hz', ho'.trans hob, hs'.trans hsb⟩
    · rw [Function.update_of_ne ht]
      refine frameOk_mono (hs.frames t') fun {b zb} hb hbo => hmem hb ?_
      intro hba
      rw [hba, hz] at hb
      rw [← Option.some.inj hb, ho] at hbo
      exact ht hbo.symm
  rcases baseFree_cases htsOf hso hres h with ⟨hn, rfl⟩ | ⟨hn, -, rfl⟩
  · refine hs'.freed hz ho hts (fun s' hss => ?_) (fun o' ho' => ?_)
      (fun _ => by show w.mem.count _ = 1; omega)
      (hframes (w.globalsWithout t a) (w.shared.free s))
    · show (w.shared.free s).get s' = w.shared.get s'
      rw [Heap.get_free, if_neg hss]
    · change (w.shared.free s).get s = some o' at ho'
      rw [Heap.get_free, if_pos rfl] at ho'
      cases ho'
  · refine hs'.freed hz ho hts (fun s' hss => ?_) (fun o' ho' => ?_)
      (fun hnone => ?_) (hframes (w.globalsWithout t a) (w.persisted t s o))
    · show (w.persisted t s o).get s' = w.shared.get s'
      rw [get_persisted hso, if_neg hss]
    · change (w.persisted t s o).get s = some o' at ho'
      rw [get_persisted hso, if_pos rfl] at ho'
      rw [← Option.some.inj ho']
      show o.refcount - 1 + 1 = w.mem.count (pointsTo s) ∧ 0 < o.refcount - 1
      omega
    · change (w.persisted t s o).get s = none at hnone
      rw [get_persisted hso, if_pos rfl] at hnone
      cases hnone

-- ========================================================== every step

/-- One case per kind of step. -/
theorem step_skel {act : Act} (hs : Skel w) (h : step E w act = some w') :
    Skel w' := by
  have hready : ∀ {c x f}, w.ready c = some x →
      (f = Frame.idle ∨ (∃ k v, f = .fill c k v) ∨ ∃ k, f = .drop c k) →
      FrameOk w x.z.owner f := by
    intro c x f hx hf
    obtain ⟨hz, hts, -⟩ := conn_eq_some.mp (ready_eq_some.mp hx).1
    rcases hf with rfl | ⟨k, v, rfl⟩ | ⟨k, rfl⟩
    · trivial
    · exact ⟨x.z, x.s, hz, rfl, hts⟩
    · exact ⟨x.z, x.s, hz, rfl, hts⟩
  have hcon := fun t => hs.connecting t
  cases step_effect h with
  | newString hf => exact hs.growStep (.string _)
  | freeString _ =>
      exact hs.same
        ⟨fun _ => rfl, fun _ => rfl, fun _ => rfl, rfl, rfl, rfl⟩ rfl
  | newClosure _ => exact hs.growStep (E := E) (t := 0) (.closure _)
  | freeClosure =>
      exact hs.same
        ⟨fun _ => rfl, fun _ => rfl, fun _ => rfl, rfl, rfl, rfl⟩ rfl
  | alloc _ _ =>
      refine (hs.objectAlloc _).setFrame ?_
      exact ⟨_, Heap.get_place_self _ _ _, rfl, rfl⟩
  | ctor hf hu => exact hs.baseCtor hf hu
  | connect _ => exact hs.grow (objectConnect_grow (hcon _) _)
  | bindGlobals _ =>
      exact hs.same
        ⟨fun _ => rfl, fun _ => rfl, fun _ => rfl, rfl, rfl, rfl⟩ rfl
  | addGarbage _ _ _ _ _ =>
      exact hs.same (sameSkel_modify w _ _ fun _ => ⟨rfl, rfl⟩) rfl
  | collect _ =>
      exact hs.same (sameSkel_modify w _ _ fun _ => ⟨rfl, rfl⟩) rfl
  | @release t batch hg =>
      refine hs.setFrame ?_
      unfold canRelease at hg
      simp only [Bool.and_eq_true, decide_eq_true_eq, List.all_eq_true] at hg
      refine ⟨hg.1.1.1.2, fun a ha => ?_⟩
      obtain ⟨x, hx, ho⟩ := (Option.any_eq_true _ _).mp (hg.1.2 a ha)
      obtain ⟨hz, hts, -⟩ := conn_eq_some.mp hx
      exact ⟨x.z, x.s, hz, beq_iff_eq.mp ho, hts⟩
  | baseFree hf hu => exact hs.baseFree hf hu
  | readCached hx _ => exact hs.same (sameSkel_setLocal w _ _) rfl
  | @readRestored c k access x st v u hx _ _ hr =>
      have hs1 := hs.same (sameSkel_setLocal w c (w.readSync x)) rfl
      have hg := grow_of_restored hr (hs1.connecting x.z.owner)
      refine (hs1.grow hg).setFrame ?_
      have hf := (sameSkel_setLocal w c (w.readSync x)).frameOk
        (hready hx (Or.inr (Or.inl ⟨k, v, rfl⟩)))
      exact frameOk_mono hf fun hz _ => ⟨_, hg.mem hz, rfl, rfl⟩
  | @readThrew c k access x st u hx hr =>
      have hs1 := hs.same (sameSkel_setLocal w c (w.readSync x)) rfl
      have hg := grow_of_restored hr (hs1.connecting x.z.owner)
      exact hs1.grow hg
  | readNothing hx => exact hs.same (sameSkel_setLocal w _ _) rfl
  | @write c key v x st hx _ _ =>
      have hsame := sameSkel_commit w c x.s
        (w.writeStore x.z.owner x.z.loc x.o.props key st).2
      exact (hs.same hsame rfl).setFrame
        (hsame.frameOk (hready hx (Or.inr (Or.inl ⟨_, _, rfl⟩))))
  | @delete c k x hx _ =>
      have hsame := sameSkel_commit w c x.s (bumpIf
        (memberIsCacheable x.o.props.hash k) x.z.loc (x.o.props.delete k))
      exact (hs.same hsame rfl).setFrame
        (hsame.frameOk (hready hx (Or.inr (Or.inr ⟨_, rfl⟩))))
  | deleteNothing _ _ => exact hs.same (sameSkel_commit w _ _ _) rfl
  | fill _ =>
      exact (hs.same (sameSkel_updateLocalProperty w _ _ _) rfl).setFrame
        trivial
  | @drop t c k _ =>
      have hsame := sameSkel_modify w c
        (fun z => { z with loc := z.loc.del k }) fun _ => ⟨rfl, rfl⟩
      exact (hs.same hsame rfl).setFrame trivial
  | @take act c x e p r u hx _ hr _ =>
      have hg := grow_of_restored hr (hcon x.z.owner)
      exact (hs.grow hg).same (sameSkel_commit u _ _ _) rfl
  | takeNothing _ _ => exact hs
  | @chunk c size x r hx hr =>
      exact (hs.grow (restoreAll_grow _ (hcon x.z.owner) hr)).same
        (sameSkel_commit _ _ _ _) rfl
  | merge _ _ _ => exact hs.same (sameSkel_commit w _ _ _) rfl
  | @tohash c own x r l hx hr _ =>
      exact (hs.grow (restoreAll_grow _ (hcon x.z.owner) hr)).same
        (sameSkel_setLocal _ _ _) rfl
  | sync _ => exact hs.same (sameSkel_setLocal w _ _) rfl
  | fullSync _ hu =>
      exact hs.syncs (fullSync_syncs visits_all _ (hcon _) trivial hu).1
  | join _ hu =>
      exact hs.syncs (joinSync_syncs visits_all (hcon _) trivial
        (fun _ _ => trivial) hu)

/-- By induction on the run. -/
theorem Reachable.skel (h : Reachable E w) : Skel w :=
  h.induct skel_init fun _ _ _ hs hstep => step_skel hs hstep

/-- The bookkeeping of connections in every reachable world: a ts_obj is
live exactly while some live zend object points to it, and its
reference count is the number of these; the objects table holds
exactly the live zend objects; and each thread has at most one live
connection to a ts_obj, the one its resolve table maps it to. -/
theorem connections_consistent (E : Engine) (w : World)
    (h : Reachable E w) :
    (∀ s, ((w.shared.get s).isSome = true
        ↔ 0 < w.mem.count (pointsTo s))
      ∧ ∀ o, w.shared.get s = some o →
        o.refcount = w.mem.count (pointsTo s))
    ∧ (∀ a, a ∈ w.objects ↔ (w.mem.get a).isSome = true)
    ∧ (∀ a z s, w.mem.get a = some z → z.tsObj = some s →
        w.resolve z.owner s = some a)
    ∧ (∀ t s a, w.resolve t s = some a →
        ∃ z, w.mem.get a = some z ∧ z.owner = t ∧ z.tsObj = some s)
    ∧ ∀ a b za zb s, w.mem.get a = some za → w.mem.get b = some zb →
        za.owner = zb.owner → za.tsObj = some s → zb.tsObj = some s →
        a = b := by
  have hs := h.skel
  refine ⟨fun s => ⟨⟨fun hlive => ?_, fun hpos => ?_⟩, fun o ho =>
    (hs.refcount ho).1⟩, hs.objects, fun a z s => hs.resolveAll,
    fun t s a => hs.resolveLive, fun a b za zb s ha hb ho hsa hsb => ?_⟩
  · obtain ⟨o, ho⟩ := Option.isSome_iff_exists.mp hlive
    rw [← (hs.refcount ho).1]
    exact (hs.refcount ho).2
  · cases ho : w.shared.get s with
    | some o => rfl
    | none =>
        rw [hs.count_eq_zero ho] at hpos
        cases hpos
  · have h1 := hs.resolveAll ha hsa
    rw [ho, hs.resolveAll hb hsb] at h1
    exact (Option.some.inj h1).symm

/-- Thread 1 makes an object and thread 2 connects to it. -/
def connectOnce : List Act :=
  [.alloc 1 [] .threaded [], .ctor 1, .connect 2 1]

theorem connections_consistent_connectOnce :
    ∃ w o, run (demoEngine .bump) init connectOnce = some w
      ∧ w.shared.get 1 = some o ∧ w.mem.count (pointsTo 1) = 2
      ∧ o.refcount = 2 ∧ w.resolve 2 1 = some 2 := by
  have hview : (run (demoEngine .bump) init connectOnce).map
      (fun w => (w.mem.count (pointsTo 1),
        (w.mem.get 2).map fun z => (z.owner, z.tsObj)))
      = some (2, some (2, some 1)) := by
    decide
  obtain ⟨w, hw, hv⟩ := Option.map_eq_some_iff.mp hview
  obtain ⟨hcount, hz⟩ := Prod.mk.inj hv
  obtain ⟨z, hz, hzv⟩ := Option.map_eq_some_iff.mp hz
  obtain ⟨hown, hts⟩ := Prod.mk.inj hzv
  obtain ⟨hrc, -, hres, -⟩ :=
    connections_consistent (demoEngine .bump) w ⟨_, hw⟩
  have hlive : (w.shared.get 1).isSome = true :=
    (hrc 1).1.mpr (by rw [hcount]; decide)
  obtain ⟨o, ho⟩ := Option.isSome_iff_exists.mp hlive
  have hres2 := hres 2 z 1 hz hts
  rw [hown] at hres2
  exact ⟨w, o, hw, ho, hcount, ((hrc 1).2 o ho).trans hcount, hres2⟩

end PmmpThread.Model.World
