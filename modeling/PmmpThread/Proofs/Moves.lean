/-
What the operations can do to the world, said once.

Restoring values only adds: a string, a closure, or a connection of the
acting thread to a ts_obj it had none to (`GrowStep`), any number of
them (`Grow`). Everything else an operation does is a change to one
store and one local table, which leaves the skeleton of the world alone
(`SameSkel`): who is connected to what. Invariants are proved against
these few moves and not against the operations.
-/
import Mathlib.Logic.Relation
import PmmpThread.Model.Step

namespace PmmpThread.Zend.Heap

variable {α : Type}

/-- Changing the cell just placed is placing the changed cell. -/
theorem modify_place_self (h : Heap α) (a : Nat) (x : α) (f : α → α) :
    (h.place a x).modify a f = h.place a (f x) := by
  have hc : modifyCells (h.cells.insert a x) a f = h.cells.insert a (f x) := by
    unfold modifyCells
    rw [AList.lookup_insert]
    exact AList.insert_insert _
  unfold modify place
  congr 1

end PmmpThread.Zend.Heap

namespace PmmpThread.Model.World

open Zend

variable {E : Engine} {t : ThreadId} {w w' : World}

-- ============================================================ growing

/-- The modification count of a live ts_obj. -/
def modcountOf (w : World) (s : TsAddr) : Int :=
  ((w.shared.get s).map fun o => o.props.modcount).getD 0

/-- The zend object of a new connection. -/
def connectionTo (w : World) (t : ThreadId) (s : TsAddr)
    (declared : List Key) : ZObj where
  owner := t
  tsObj := some s
  loc := ⟨none, w.modcountOf s - 1⟩
  declared := declared
  gc := []

/-- The world after thread `t` got a new connection to `s`. -/
def addConnection (E : Engine) (w : World) (t : ThreadId) (s : TsAddr)
    (declared : List Key) : World :=
  { w with
    mem := w.mem.place (w.mem.next E.object) (w.connectionTo t s declared)
    shared := w.shared.modify s fun o => { o with refcount := o.refcount + 1 }
    objects := w.objects.insert (w.mem.next E.object)
    resolve := Function.update w.resolve t
      (Function.update (w.resolve t) s (some (w.mem.next E.object))) }

/-- One addition by thread `t`. -/
inductive GrowStep (E : Engine) (t : ThreadId) (w : World) : World → Prop
  | string (b : Bytes) : GrowStep E t w (w.newString E t b).2
  | closure (cl : Closure) : GrowStep E t w (w.newClosure cl).2
  | connection {a : Addr} {z : ZObj} {s : TsAddr}
      (hvalid : w.objectValid a = true) (hz : w.mem.get a = some z)
      (howner : z.owner ≠ t) (hs : z.tsObj = some s)
      (hresolve : w.resolve t s = none)
      (hinit : w.initializes E t a = true) :
      GrowStep E t w (w.addConnection E t s z.declared)

/-- Any number of additions. -/
abbrev Grow (E : Engine) (t : ThreadId) : World → World → Prop :=
  Relation.ReflTransGen (GrowStep E t)

theorem GrowStep.connecting (h : GrowStep E t w w') :
    w'.connecting = w.connecting := by
  cases h <;> rfl

/-- An addition leaves the guard against recursion as it was. -/
theorem Grow.connecting (h : Grow E t w w') :
    w'.connecting = w.connecting := by
  induction h with
  | refl => rfl
  | tail _ hs ih => rw [hs.connecting, ih]

theorem update_eq_self {f : ThreadId → Option Addr} {x y : Option Addr}
    (h : f t = x) : Function.update (Function.update f t y) t x = f := by
  rw [Function.update_idem, ← h, Function.update_eq_self]

/-- A search that neither fails nor finds one: the object is live and
another thread's. -/
theorem findConnection_none {a : Addr} (h : w.findConnection t a = none) :
    w.objectValid a = true ∧ ∃ z, w.mem.get a = some z ∧ z.owner ≠ t
      ∧ z.tsObj.bind (w.resolve t) = none := by
  unfold findConnection at h
  by_cases hv : w.objectValid a = true
  · rw [if_pos hv] at h
    cases hz : w.mem.get a with
    | none => rw [hz] at h; cases h
    | some z =>
        rw [hz] at h
        by_cases ho : z.owner = t
        · simp only [if_pos ho] at h
          cases h
        · simp only [if_neg ho] at h
          exact ⟨hv, z, rfl, ho, Option.map_eq_none_iff.mp h⟩
  · rw [if_neg hv] at h
    cases h

theorem setConnecting_self (hc : w.connecting t = none) :
    w.setConnecting t none = w := by
  unfold setConnecting
  rw [← hc, Function.update_eq_self]

/-- An object that is not built has no class to initialise. -/
theorem initializes_of_tsObj_none {a : Addr} {z : ZObj}
    (hz : w.mem.get a = some z) (hs : z.tsObj = none) :
    w.initializes E t a = true := by
  unfold initializes birthOf
  rw [tsOf_of_get hz, hs]
  rfl

/-- A connection that has to be made is the new one, unless the class
cannot be initialised, or there is no ts_obj to connect to. -/
theorem objectConnect_create (hc : w.connecting t = none) {a : Addr}
    {z : ZObj} (hf : w.findConnection t a = none)
    (hz : w.mem.get a = some z) :
    w.objectConnect E t a
      = match z.tsObj with
        | some s =>
            if w.initializes E t a then
              (.ok (w.mem.next E.object), w.addConnection E t s z.declared)
            else (.failed, w)
        | none => (.fault, w) := by
  obtain ⟨-, z', hz', -, hres⟩ := findConnection_none hf
  have hzz : z' = z := Option.some.inj (hz'.symm.trans hz)
  subst hzz
  have hne : a ≠ w.mem.next E.object := Heap.ne_next_of_get hz
  have hdecl : w.declaredOf a = z'.declared := by
    unfold declaredOf
    rw [hz]
    rfl
  unfold objectConnect
  rw [hf, setConnecting_self hc]
  simp only [createObject, baseCtor, objectAlloc, setConnecting,
    Function.update_self]
  cases hs : z'.tsObj with
  | none =>
      rw [initializes_of_tsObj_none hz' hs]
      have hts : tsOf { w with
          mem := w.mem.place (w.mem.next E.object)
            { owner := t, tsObj := none, loc := ⟨none, 0⟩,
              declared := w.declaredOf a, gc := [] }
          objects := w.objects.insert (w.mem.next E.object)
          connecting := Function.update w.connecting t (some a) } a
          = none := by
        unfold tsOf
        rw [Heap.get_place, if_neg hne, hz]
        exact hs
      simp only [connectNolock, hts, Option.map_none, if_true]
  | some s =>
      rw [hs] at hres
      refine if_congr Iff.rfl ?_ rfl
      have hres : w.resolve t s = none := hres
      have hts : tsOf { w with
          mem := w.mem.place (w.mem.next E.object)
            { owner := t, tsObj := none, loc := ⟨none, 0⟩,
              declared := w.declaredOf a, gc := [] }
          objects := w.objects.insert (w.mem.next E.object)
          connecting := Function.update w.connecting t (some a) } a
          = some s := by
        unfold tsOf
        rw [Heap.get_place, if_neg hne, hz]
        exact hs
      have hmod : ((Heap.get (w.shared.modify s fun o =>
            { o with refcount := o.refcount + 1 }) s).map fun o =>
              o.props.modcount).getD 0 = w.modcountOf s := by
        unfold modcountOf
        rw [Heap.get_modify_self]
        cases w.shared.get s <;> rfl
      simp only [connectNolock, hts, Option.map_some]
      simp only [registerObject, tsOf, Heap.modify_place_self,
        Heap.get_place_self, Option.bind_some, hres, hmod, hdecl,
        update_eq_self hc]
      rfl

/-- Otherwise there is an exception, and nothing else has changed. -/
theorem objectConnect_failed (hc : w.connecting t = none) {a : Addr}
    (h : w.connectable E t a = false) :
    w.objectConnect E t a = (.failed, w) := by
  obtain ⟨hf, hi⟩ := Bool.or_eq_false_iff.mp h
  unfold objectConnect
  rw [Option.isSome_eq_false_iff, Option.isNone_iff_eq_none] at hf
  rw [hf, hi, setConnecting_self hc]
  rfl

/-- Connecting adds at most a connection. -/
theorem objectConnect_grow (hc : w.connecting t = none) (a : Addr) :
    Grow E t w (w.objectConnect E t a).2 := by
  cases hf : w.findConnection t a with
  | some r =>
      have : w.objectConnect E t a = (r, w) := by
        unfold objectConnect
        rw [hf]
      rw [this]
  | none =>
      obtain ⟨hv, z, hz, ho, hres⟩ := findConnection_none hf
      rw [objectConnect_create hc hf hz]
      cases hs : z.tsObj with
      | none => exact .refl
      | some s =>
          rw [hs] at hres
          dsimp only
          split
          case isTrue hi =>
            exact .single (.connection hv hz ho hs hres hi)
          case isFalse => exact .refl

/-- A copy of a closure adds what its parts add: the bound variables, -/
theorem copyStatics_grow (us : List (Use Addr)) :
    ∀ {w : World}, w.connecting t = none → ∀ {r},
      w.copyStatics E t us = some r → Grow E t w r.2 := by
  induction us with
  | nil =>
      intro w _ r h
      injection h with h
      rw [← h]
  | cons u us ih =>
      intro w hc r h
      cases u with
      | uninit => cases h
      | null =>
          obtain ⟨r', hr', hr⟩ := Option.map_eq_some_iff.mp h
          have hg := ih hc hr'
          rw [← hr]
          exact hg
      | object a =>
          have hg := objectConnect_grow (E := E) hc a
          have hc' : (w.objectConnect E t a).2.connecting t = none := by
            rw [hg.connecting]
            exact hc
          obtain ⟨u, -, h⟩ := Option.bind_eq_some_iff.mp h
          obtain ⟨r', hr', hr⟩ := Option.map_eq_some_iff.mp h
          have hg' := ih hc' hr'
          rw [← hr]
          exact hg.trans hg'

/-- the closure itself after `$this`, -/
theorem copyBound_grow (hc : w.connecting t = none) (cl : Closure)
    (thisObj : Option Addr) : Grow E t w (w.copyBound E t cl thisObj).2 := by
  unfold copyBound
  by_cases hf : cl.fake = true
  · rw [if_pos hf]
    by_cases hk : E.functionKnown t cl.body = true
    · rw [if_pos hk]
      exact .single (.closure _)
    · rw [if_neg hk]
  · rw [if_neg hf]
    cases hr : w.copyStatics E t cl.uses with
    | none => exact .refl
    | some r => exact (copyStatics_grow _ hc hr).tail (.closure _)

/-- and all of it. -/
theorem copyClosure_grow (hc : w.connecting t = none) (p : ClosurePtr) :
    Grow E t w (w.copyClosure E t p).2 := by
  unfold copyClosure
  cases w.closures[p]? with
  | none => exact .refl
  | some cl =>
      by_cases hl : cl.live = true
      · simp only [if_pos hl]
        cases cl.thisObj with
        | none => exact copyBound_grow hc cl none
        | some a =>
            have hg := objectConnect_grow (E := E) hc a
            have hc' : (w.objectConnect E t a).2.connecting t = none := by
              rw [hg.connecting]
              exact hc
            simp only []
            split
            case h_1 l w' hcon =>
              rw [hcon] at hg hc'
              exact hg.trans (copyBound_grow hc' cl _)
            case h_2 w' hcon => rw [hcon] at hg; exact hg
            case h_3 w' hcon =>
              rw [hcon] at hg hc'
              exact hg.trans (copyBound_grow hc' cl none)
            case h_4 w' hcon => rw [hcon] at hg; exact hg
      · simp only [if_neg hl]
        exact .refl

/-- Restoring only adds. -/
theorem restoreZval_grow (hc : w.connecting t = none) (st : Storage) :
    Grow E t w (w.restoreZval E t st).2 := by
  cases st with
  | string permanent b =>
      cases permanent with
      | true => exact .refl
      | false => exact .single (.string b)
  | stringPtr owner p b =>
      show Grow E t w (w.restoreStringPtr E t owner p).2
      unfold restoreStringPtr
      cases w.strings.get p with
      | none => exact .refl
      | some s =>
          by_cases ho : owner = t
          · simp only [if_pos ho]
            exact .refl
          · simp only [if_neg ho]
            exact .single (.string s.bytes)
  | closure p thisObj owner => exact copyClosure_grow hc p
  | object a b =>
      have hg := objectConnect_grow (E := E) hc a
      simp only [restoreZval]
      split
      case h_1 l w' hcon => rw [hcon] at hg; exact hg
      case h_2 w' hcon => rw [hcon] at hg; exact hg
      case h_3 w' hcon => rw [hcon] at hg; exact hg
      case h_4 w' hcon => rw [hcon] at hg; exact hg
  | enumCase cls name =>
      rw [restoreZval_enumCase_world]
  | _ => exact .refl

/-- The same, for a result with a name. -/
theorem grow_of_restored {st : Storage} {r : Restored} {u : World}
    (hr : w.restoreZval E t st = (r, u)) (hc : w.connecting t = none) :
    Grow E t w u := by
  have hg := restoreZval_grow (E := E) hc st
  rw [hr] at hg
  exact hg

/-- Values that are restored one after the other. -/
theorem restoreAll_grow (es : List (Key × Storage)) :
    ∀ {w : World}, w.connecting t = none → ∀ {r},
      w.restoreAll E t es = some r → Grow E t w r.2 := by
  induction es with
  | nil =>
      intro w _ r h
      injection h with h
      rw [← h]
  | cons e es ih =>
      intro w hc r h
      have hg := restoreZval_grow (E := E) hc e.2
      have hc' : (w.restoreZval E t e.2).2.connecting t = none := by
        rw [hg.connecting]
        exact hc
      unfold restoreAll at h
      split at h
      case h_1 => cases h
      case h_2 v w' _ hres =>
        rw [hres] at hg hc'
        obtain ⟨r', hr', hr⟩ := Option.map_eq_some_iff.mp h
        have hg' := ih hc' hr'
        rw [← hr]
        exact hg.trans hg'

-- ========================================================= connections

theorem isIdle_iff {f : Frame} : f.isIdle = true ↔ f = .idle := by
  cases f <;> simp [Frame.isIdle]

/-- A connection whose thread is between two calls. -/
theorem ready_eq_some {c : Addr} {x : Conn} :
    w.ready c = some x
      ↔ w.conn c = some x ∧ w.frame x.z.owner = .idle := by
  unfold ready
  rw [Option.filter_eq_some_iff, isIdle_iff]

/-- What a connection is made of. -/
theorem conn_eq_some {c : Addr} {x : Conn} :
    w.conn c = some x
      ↔ w.mem.get c = some x.z ∧ x.z.tsObj = some x.s
        ∧ w.shared.get x.s = some x.o := by
  unfold conn
  refine ⟨fun h => ?_, fun ⟨hz, hs, ho⟩ => ?_⟩
  · cases hz : w.mem.get c with
    | none => rw [hz] at h; cases h
    | some z =>
        cases hs : z.tsObj with
        | none => simp only [hz, hs] at h; cases h
        | some s =>
            simp only [hz, hs] at h
            obtain ⟨o, ho, rfl⟩ := Option.map_eq_some_iff.mp h
            exact ⟨rfl, hs, ho⟩
  · simp only [hz, hs, ho, Option.map_some]

-- ===================================================== what persists

/-- `w'` has everything `w` has; local tables and reference counts may
differ. -/
structure Extends (w w' : World) : Prop where
  mem : ∀ {a z}, w.mem.get a = some z →
    ∃ l, w'.mem.get a = some { z with loc := l }
  past : ∀ {a}, a ∈ w.mem.past → a ∈ w'.mem.past
  shared : ∀ {s o}, w.shared.get s = some o →
    ∃ n, w'.shared.get s = some { o with refcount := n }
  strings : ∀ {p s}, w.strings.get p = some s → w'.strings.get p = some s
  closures : w.closures <+: w'.closures
  objects : ∀ {a}, a ∈ w.objects → a ∈ w'.objects
  resolve : ∀ {t s a}, w.resolve t s = some a → w'.resolve t s = some a
  frame : w'.frame = w.frame
  connecting : w'.connecting = w.connecting
  globals : w'.threadSharedGlobals = w.threadSharedGlobals
  births : w'.births = w.births

theorem Extends.refl (w : World) : Extends w w where
  mem h := ⟨_, h⟩
  past h := h
  shared h := ⟨_, h⟩
  strings h := h
  closures := List.prefix_rfl
  objects h := h
  resolve h := h
  frame := rfl
  connecting := rfl
  globals := rfl
  births := rfl

theorem Extends.trans {u : World} (h : Extends w u) (h' : Extends u w') :
    Extends w w' where
  mem hz := by
    obtain ⟨l, hl⟩ := h.mem hz
    obtain ⟨l', hl'⟩ := h'.mem hl
    exact ⟨l', hl'⟩
  past ha := h'.past (h.past ha)
  shared ho := by
    obtain ⟨n, hn⟩ := h.shared ho
    obtain ⟨n', hn'⟩ := h'.shared hn
    exact ⟨n', hn'⟩
  strings hs := h'.strings (h.strings hs)
  closures := h.closures.trans h'.closures
  objects ha := h'.objects (h.objects ha)
  resolve hr := h'.resolve (h.resolve hr)
  frame := h'.frame.trans h.frame
  connecting := h'.connecting.trans h.connecting
  globals := h'.globals.trans h.globals
  births := h'.births.trans h.births

/-- A change to one local table keeps everything else. -/
theorem extends_modify_loc (w : World) (c : Addr) (f : ZObj → Local) :
    Extends w { w with mem := w.mem.modify c fun z =>
      { z with loc := f z } } where
  mem {a z} hz := by
    by_cases ha : a = c
    · rw [ha] at hz ⊢
      exact ⟨f z, by rw [Heap.get_modify_self, hz]; rfl⟩
    · exact ⟨z.loc, by rw [Heap.get_modify_ne _ _ ha, hz]⟩
  past h := h
  shared h := ⟨_, h⟩
  strings h := h
  closures := List.prefix_rfl
  objects h := h
  resolve h := h
  frame := rfl
  connecting := rfl
  globals := rfl
  births := rfl

theorem Extends.tsOf (h : Extends w w') {a : Addr} {s : TsAddr}
    (hs : w.tsOf a = some s) : w'.tsOf a = some s := by
  obtain ⟨z, hz, hs⟩ := Option.bind_eq_some_iff.mp hs
  obtain ⟨l, hl⟩ := h.mem hz
  exact Option.bind_eq_some_iff.mpr ⟨_, hl, hs⟩

/-- An object that was built stays the same object. -/
theorem Extends.birthOf (h : Extends w w') {a : Addr} {b : Nat}
    (hb : w.birthOf a = some b) : w'.birthOf a = some b := by
  obtain ⟨o, ho, hb⟩ := Option.map_eq_some_iff.mp hb
  obtain ⟨s, hs, ho⟩ := Option.bind_eq_some_iff.mp ho
  obtain ⟨n, hn⟩ := h.shared ho
  unfold World.birthOf
  rw [h.tsOf hs, Option.bind_some, hn]
  exact congrArg some hb

/-- A connection stays one, with the same store. -/
theorem Extends.conn (h : Extends w w') {c : Addr} {x : Conn}
    (hx : w.conn c = some x) :
    ∃ l n, w'.conn c
      = some ⟨{ x.z with loc := l }, x.s, { x.o with refcount := n }⟩ := by
  obtain ⟨hz, hs, ho⟩ := conn_eq_some.mp hx
  obtain ⟨l, hl⟩ := h.mem hz
  obtain ⟨n, hn⟩ := h.shared ho
  exact ⟨l, n, conn_eq_some.mpr ⟨hl, hs, hn⟩⟩

/-- An addition changes no object that was there. -/
theorem GrowStep.mem (h : GrowStep E t w w') {a : Addr} {z : ZObj}
    (hz : w.mem.get a = some z) : w'.mem.get a = some z := by
  cases h with
  | string b => exact hz
  | closure cl => exact hz
  | connection _ _ _ _ _ _ =>
      unfold addConnection
      rw [Heap.get_place, if_neg (Heap.ne_next_of_get hz)]
      exact hz

theorem Grow.mem (h : Grow E t w w') {a : Addr} {z : ZObj}
    (hz : w.mem.get a = some z) : w'.mem.get a = some z := by
  induction h with
  | refl => exact hz
  | tail _ hs ih => exact hs.mem ih

theorem GrowStep.extends (h : GrowStep E t w w') : Extends w w' := by
  cases h with
  | string b =>
      refine { Extends.refl w with strings := fun {p s} hp => ?_ }
      show (w.strings.place _ _).get p = some s
      rw [Heap.get_place, if_neg (Heap.ne_next_of_get hp)]
      exact hp
  | closure cl =>
      exact { Extends.refl w with closures := List.prefix_append _ _ }
  | @connection _ _ s hvalid hz howner hs hres =>
      refine { Extends.refl w with
        mem := fun {a z} hz => ⟨z.loc, ?_⟩,
        past := fun ha => List.mem_cons_of_mem _ ha,
        shared := fun {s' o} ho => ?_,
        objects := fun ha => ?_, resolve := fun {t' s' a} hr => ?_ }
      · unfold addConnection
        rw [Heap.get_place, if_neg (Heap.ne_next_of_get hz)]
        exact hz
      · unfold addConnection
        by_cases hs' : s' = s
        · rw [hs'] at ho ⊢
          exact ⟨o.refcount + 1, by rw [Heap.get_modify_self, ho]; rfl⟩
        · exact ⟨o.refcount, by rw [Heap.get_modify_ne _ _ hs', ho]⟩
      · exact List.mem_insert_of_mem ha
      · unfold addConnection
        by_cases ht : t' = t
        · by_cases hs' : s' = s
          · rw [ht, hs', hres] at hr
            cases hr
          · rw [ht] at hr ⊢
            simp only [Function.update_self, Function.update_of_ne hs']
            exact hr
        · simp only [Function.update_of_ne ht]
          exact hr

/-- Additions extend the world. -/
theorem Grow.extends (h : Grow E t w w') : Extends w w' := by
  induction h with
  | refl => exact .refl w
  | tail _ hs ih => exact ih.trans hs.extends

-- ========================================================== full sync

/-- A full sync goes on with what restoring the storage left: there was no
fault, and an object entry gave an object. -/
def SyncsValue (st : Storage) (r : Restored) : Prop :=
  r ≠ .fault
    ∧ (storageIsPmmpthreadObj st = true → ∃ l, r = .value (.object l))

/-- What a full sync does on thread `t`: additions, the sync of one
local table, and putting a restored value where the table has none.
Between restoring and putting a value the sync may have gone on with
other objects, not with this one. `own` says whose tables it changes. -/
inductive Syncs (E : Engine) (t : ThreadId) (own : ThreadId → Prop) :
    World → World → Prop
  | refl (w : World) : Syncs E t own w w
  | grow {w u v : World} (h : Syncs E t own w u) (hg : GrowStep E t u v) :
      Syncs E t own w v
  | sync {w u : World} {c : Addr} {x : Conn} (h : Syncs E t own w u)
      (hx : u.conn c = some x) (ho : own x.z.owner) :
      Syncs E t own w (u.setLocal c ((u.syncLocal x.z.owner x.o.props
        x.z.loc).initProps x.z.declared))
  | put {w u u₁ u₂ : World} {c : Addr} {x : Conn} {k : Key} {st : Storage}
      {r : Restored} (h : Syncs E t own w u) (hx : u.conn c = some x)
      (ho : own x.z.owner) (hst : x.o.props.hash.find k = some st)
      (hcache : storageIsCacheable (some st) = true)
      (hn : x.z.loc.cached k = none)
      (hr : u.restoreZval E t st = (r, u₁)) (hne : SyncsValue st r)
      (h' : Syncs E t own u₁ u₂) (hz : u₂.mem.get c = some x.z) :
      Syncs E t own w (u₂.putLocal c k r.zval)

variable {own : ThreadId → Prop}

theorem Syncs.trans {u : World} (h : Syncs E t own w u)
    (h' : Syncs E t own u w') : Syncs E t own w w' := by
  induction h' with
  | refl => exact h
  | grow _ hg ih => exact .grow (ih h) hg
  | sync _ hx ho ih => exact .sync (ih h) hx ho
  | put _ hx ho hst hcache hn hr hne h₂ hz ih _ =>
      exact .put (ih h) hx ho hst hcache hn hr hne h₂ hz

theorem Syncs.of_grow (h : Grow E t w w') : Syncs E t own w w' := by
  induction h with
  | refl => exact .refl w
  | tail _ hs ih => exact .grow ih hs

/-- So do syncs, which change local tables on the way. -/
theorem Syncs.extends (hc : w.connecting t = none)
    (h : Syncs E t own w w') : Extends w w' := by
  induction h with
  | refl => exact .refl _
  | grow _ hg ih => exact (ih hc).trans hg.extends
  | sync _ _ _ ih =>
      exact (ih hc).trans (extends_modify_loc _ _ fun _ => _)
  | @put w u u₁ u₂ c x k st r _ _ _ _ _ _ hr _ _ _ ih ih' =>
      have hu : u.connecting t = none := by rw [(ih hc).connecting]; exact hc
      have hg := (restoreZval_grow (E := E) hu st)
      rw [hr] at hg
      have hu₁ : u₁.connecting t = none := by rw [hg.connecting]; exact hu
      exact (((ih hc).trans hg.extends).trans (ih' hu₁)).trans
        (extends_modify_loc u₂ c fun z => z.loc.put z.declared k r.zval)

theorem Syncs.connecting (hc : w.connecting t = none)
    (h : Syncs E t own w w') : w'.connecting t = none := by
  rw [(h.extends hc).connecting]
  exact hc

/-- Why a full sync changes tables of `own` threads only: `I` holds of
the worlds it goes through and `V` of the objects it visits. -/
structure Visits (E : Engine) (t : ThreadId) (own : ThreadId → Prop)
    (I : World → Prop) (V : World → Addr → Prop) : Prop where
  syncs : ∀ {w w'}, I w → Syncs E t own w w' → I w'
  mono : ∀ {w w' a}, I w → V w a → Syncs E t own w w' → V w' a
  connecting : ∀ {w}, I w → w.connecting t = none
  owner : ∀ {w c x}, I w → V w c → w.conn c = some x → own x.z.owner
  cached : ∀ {w c z k l}, I w → V w c → w.mem.get c = some z →
    z.loc.cached k = some (.object l) → V w l
  gc : ∀ {w c z l}, I w → V w c → w.mem.get c = some z → l ∈ z.gc → V w l
  restored : ∀ {w u st l}, I w →
    w.restoreZval E t st = (.value (.object l), u) → V u l

/-- The plain instance: any thread's tables, no assumption on the objects.
-/
theorem visits_all : Visits E t (fun _ => True)
    (fun w => w.connecting t = none) (fun _ _ => True) where
  syncs h hs := hs.connecting h
  mono _ _ _ := trivial
  connecting h := h
  owner _ _ _ := trivial
  cached _ _ _ _ := trivial
  gc _ _ _ _ := trivial
  restored _ _ := trivial

/-- The protected objects are as they were. -/
def Leaves (protect : List Addr) (w w' : World) : Prop :=
  ∀ c ∈ protect, ∀ z, w.mem.get c = some z → w'.mem.get c = some z

/-- One part after the other. -/
theorem Leaves.trans {protect : List Addr} {u : World}
    (h : Leaves protect w u) (h' : Leaves protect u w') :
    Leaves protect w w' := fun c hc z hz => h' c hc z (h c hc z hz)

/-- A change to an object that is not protected. -/
theorem Leaves.modify {protect : List Addr} {c : Addr} (hc : c ∉ protect)
    (w : World) (f : ZObj → ZObj) :
    Leaves protect w { w with mem := w.mem.modify c f } := by
  intro c' hc' z hz
  have hne : c' ≠ c := by
    intro h
    exact hc (h ▸ hc')
  show (w.mem.modify c f).get c' = some z
  rw [Heap.get_modify_ne _ _ hne]
  exact hz

section FullSync

variable {I : World → Prop} {V : World → Addr → Prop}
  (hv : Visits E t own I V)

include hv

/-- One round of the loop over the entries. -/
theorem fullSyncEntry_syncs {protect : List Addr}
    {recurse : World → Addr → Option World} {c : Addr} {x : Conn}
    {e : Key × Storage} (hI : I w) (hV : V w c) (hcp : c ∉ protect)
    (hrec : ∀ {u : World} {a u'}, I u → V u a → recurse u a = some u' →
      Syncs E t own u u' ∧ Leaves (c :: protect) u u')
    (hx : w.conn c = some x) (he : x.o.props.hash.find e.1 = some e.2)
    (h : fullSyncEntry E t recurse c w e = some w') :
    Syncs E t own w w' ∧ Leaves protect w w' := by
  have hsub : ∀ {u u' : World}, Leaves (c :: protect) u u' →
      Leaves protect u u' :=
    fun h c' hc' => h c' (List.mem_cons_of_mem _ hc')
  have hz := (conn_eq_some.mp hx).1
  unfold fullSyncEntry at h
  rw [hz, Option.bind_some] at h
  cases hn : x.z.loc.cached e.1 with
  | some v =>
      rw [hn] at h
      simp only [] at h
      split at h
      case isTrue =>
        cases v with
        | object l =>
            obtain ⟨h1, h2⟩ := hrec hI (hv.cached hI hV hz hn) h
            exact ⟨h1, hsub h2⟩
        | _ => cases h
      case isFalse =>
        rw [← Option.some.inj h]
        exact ⟨.refl w, fun _ _ _ hz => hz⟩
  | none =>
      rw [hn] at h
      simp only [] at h
      split at h
      case isTrue hcache =>
        have hg := restoreZval_grow (E := E) (hv.connecting hI) e.2
        have ho := hv.owner hI hV hx
        split at h
        case h_1 => cases h
        case h_2 r u hne hr =>
          rw [hr] at hg
          have hzu := hg.mem hz
          split at h
          case isTrue =>
            split at h
            case h_1 l hl =>
              obtain ⟨u', hu', h⟩ := Option.map_eq_some_iff.mp h
              have hrv : r = .value (.object l) := by
                cases r with
                | value v => exact congrArg Restored.value hl
                | failed => cases hl
                | fault => cases hl
              have hVl : V u l := hv.restored hI (hrv ▸ hr)
              obtain ⟨h1, h2⟩ :=
                hrec (hv.syncs hI (.of_grow hg)) hVl hu'
              rw [← h, ← hl]
              exact ⟨.put (.refl w) hx ho he hcache hn hr
                  ⟨fun h => hne h, fun _ => ⟨l, hrv⟩⟩ h1
                  (h2 c List.mem_cons_self _ hzu),
                (Leaves.trans (fun _ _ _ hz => hg.mem hz) (hsub h2)).trans
                  (.modify hcp _ _)⟩
            case h_2 => cases h
          case isFalse hobj =>
            rw [← Option.some.inj h]
            exact ⟨.put (.refl w) hx ho he hcache hn hr
                ⟨fun h => hne h, fun h => absurd h hobj⟩ (.refl u) hzu,
              Leaves.trans (fun _ _ _ hz => hg.mem hz)
                (.modify hcp _ _)⟩
      case isFalse =>
        rw [← Option.some.inj h]
        exact ⟨.refl w, fun _ _ _ hz => hz⟩

/-- A full sync, by induction on the depth: the objects on the way down are
protected and stay as they are. -/
theorem fullSync_syncs (fuel : Nat) :
    ∀ {protect : List Addr} {w w' : World} {c : Addr}, I w → V w c →
      fullSync E t fuel protect w c = some w' →
      Syncs E t own w w' ∧ Leaves protect w w' := by
  induction fuel with
  | zero => intro protect w w' c _ _ h; cases h
  | succ fuel ih =>
      intro protect w w' c hI hV h
      unfold fullSync at h
      split at h
      case isTrue =>
        rw [← Option.some.inj h]
        exact ⟨.refl w, fun _ _ _ hz => hz⟩
      case isFalse hcp =>
        obtain ⟨x, hx, h⟩ := Option.bind_eq_some_iff.mp h
        obtain ⟨u, hu, h⟩ := Option.bind_eq_some_iff.mp h
        have hc := hv.connecting hI
        have h0 : Syncs E t own w (w.setLocal c ((w.syncLocal x.z.owner
            x.o.props x.z.loc).initProps x.z.declared)) :=
          .sync (.refl w) hx (hv.owner hI hV hx)
        -- the loop over the entries, then the one over the gc queue
        have h1 := foldlM_induct
          (P := fun u => Syncs E t own w u ∧ Leaves protect w u) _
          (fun {u e u'} he hp hfu => by
            obtain ⟨l, n, hxu⟩ := (hp.1.extends hc).conn hx
            obtain ⟨h2, h3⟩ := fullSyncEntry_syncs hv (hv.syncs hI hp.1)
              (hv.mono hI hV hp.1) hcp (fun hI hV hr => ih hI hV hr) hxu
              (HashTable.find_eq_some_iff.mpr he) hfu
            exact ⟨hp.1.trans h2, hp.2.trans h3⟩)
          ⟨h0, .modify hcp w _⟩ hu
        refine foldlM_induct
          (P := fun u => Syncs E t own w u ∧ Leaves protect w u) _
          (fun {u l u'} hl hp hfu => ?_) h1 h
        have hVl := hv.mono hI
          (hv.gc hI hV (conn_eq_some.mp hx).1 hl) hp.1
        obtain ⟨h2, h3⟩ := ih (hv.syncs hI hp.1) hVl hfu
        exact ⟨hp.1.trans h2, hp.2.trans fun c' hc' =>
          h3 c' (List.mem_cons_of_mem _ hc')⟩

/-- A join syncs the joined object, its garbage and the shared globals. -/
theorem joinSync_syncs {fuel : Nat} {x : Addr} (hI : I w) (hV : V w x)
    (hg : ∀ g, w.threadSharedGlobals t = some g → V w g)
    (h : joinSync E fuel w t x = some w') : Syncs E t own w w' := by
  unfold joinSync at h
  obtain ⟨u, hu, h⟩ := Option.bind_eq_some_iff.mp h
  obtain ⟨v, hv', h⟩ := Option.bind_eq_some_iff.mp h
  obtain ⟨z, hz, hv'⟩ := Option.bind_eq_some_iff.mp hv'
  obtain ⟨g, hgl, h⟩ := Option.bind_eq_some_iff.mp h
  have h1 := (fullSync_syncs hv fuel hI hV hu).1
  have hIu := hv.syncs hI h1
  have h2 := foldlM_induct (P := fun u' => Syncs E t own u u') _
    (fun {u' l u''} hl hp hfu => by
      have hVl := hv.mono hIu (hv.gc hIu (hv.mono hI hV h1) hz hl) hp
      exact hp.trans (fullSync_syncs hv fuel (hv.syncs hIu hp) hVl hfu).1)
    (.refl u) hv'
  have h12 := h1.trans h2
  rw [(h12.extends (hv.connecting hI)).globals] at hgl
  exact h12.trans (fullSync_syncs hv fuel (hv.syncs hI h12)
    (hv.mono hI (hg g hgl) h12) h).1

end FullSync

-- ==================================================== what a step does

theorem setFrame_self {f : Frame} (h : w.frame t = f) :
    w.setFrame t f = w := by
  unfold setFrame
  rw [← h, Function.update_eq_self]

/-- The entry that a shift or a pop takes, and the store after it. -/
def Takes (s : Store Storage) (e : Key × Storage) (p : Store Storage) :
    Prop :=
  s.shift = (some e, p) ∨ s.pop = (some e, p)

/-- The entry that this shift or pop through `c` takes. -/
def TakesBy (act : Act) (c : Addr) (s : Store Storage) (e : Key × Storage)
    (p : Store Storage) : Prop :=
  act = .shift c ∧ s.shift = (some e, p) ∨ act = .pop c ∧ s.pop = (some e, p)

theorem TakesBy.takes {act : Act} {c : Addr} {s p : Store Storage}
    {e : Key × Storage} (h : TakesBy act c s e p) : Takes s e p :=
  h.imp And.right And.right

/-- The local table and store that taking `e` leaves. -/
def afterTake (x : Conn) (e : Key × Storage) (p : Store Storage) :
    Local × Store Storage :=
  bumpIf (storageIsCacheable (some e.2)) (x.z.loc.del e.1) p

/-- The local table and store that a chunk of `es` leaves. -/
def afterChunk (x : Conn) (es : List (Key × Storage)) (p : Store Storage) :
    Local × Store Storage :=
  bumpIf (es.any fun e => storageIsCacheable (some e.2))
    (es.foldl (fun l e => l.del e.1) x.z.loc) p

/-- The local table and store that merging `es` leaves. -/
def afterMerge (x : Conn) (overwrite : Bool) (es : List (Key × Storage)) :
    Local × Store Storage :=
  let r := mergeLoop overwrite es (x.o.props.hash, x.z.loc, false)
  bumpIf r.2.2 r.2.1 { x.o.props with hash := r.1 }.invalidateBounds

/-- The local table that tohash works on, after its sync. -/
def tohashSync (w : World) (x : Conn) : Local :=
  w.syncLocal x.z.owner x.o.props (x.z.loc.initProps x.z.declared)

/-- The local table with the restored values `vs` added. -/
def putAll (declared : List Key) (l : Local) (vs : List (Key × Zval)) :
    Local :=
  vs.foldl (fun l e => l.put declared e.1 e.2) l

/-- What a step does, by the way it ends. -/
inductive Effect (E : Engine) (w : World) : Act → World → Prop
  | newString {t b} (hf : w.frame t = .idle) :
      Effect E w (.newString t b) (w.newString E t b).2
  | freeString {p} (h : w.canFreeString p = true) :
      Effect E w (.freeString p) { w with strings := w.strings.free p }
  | newClosure {cl} (hf : w.frame cl.owner = .idle) :
      Effect E w (.newClosure cl) (w.newClosure cl).2
  | freeClosure {p} : Effect E w (.freeClosure p) (w.freeClosure p)
  | alloc {t declared scope defaults} (hf : w.frame t = .idle)
      (hd : ∀ d ∈ defaults.flatten, w.holds E t d.2 = true) :
      Effect E w (.alloc t declared scope defaults)
        ((w.objectAlloc E t declared).2.setFrame t
          (.allocated (w.objectAlloc E t declared).1 scope defaults))
  | ctor {t a scope defaults u} (hf : w.frame t = .allocated a scope defaults)
      (hu : w.baseCtor E t a scope defaults = some u) :
      Effect E w (.ctor t) (u.setFrame t .idle)
  | connect {t a} (hf : w.frame t = .idle) :
      Effect E w (.connect t a) (w.objectConnect E t a).2
  | bindGlobals {a x} (hx : w.ready a = some x) :
      Effect E w (.bindGlobals a)
        { w with
          threadSharedGlobals :=
            Function.update w.threadSharedGlobals x.z.owner (some a) }
  | addGarbage {x a cx ca} (hx : w.conn x = some cx) (ha : w.conn a = some ca)
      (ho : ca.z.owner = cx.z.owner)
      (hbx : x ∉ (w.frame cx.z.owner).batch)
      (hba : a ∉ (w.frame cx.z.owner).batch) :
      Effect E w (.addGarbage x a)
        { w with mem := w.mem.modify x fun z => { z with gc := z.gc ++ [a] } }
  | collect {x cx} (hx : w.ready x = some cx) :
      Effect E w (.collect x)
        { w with mem := w.mem.modify x fun z => { z with gc := z.gc.tail } }
  | release {t batch} (h : w.canRelease t batch = true) :
      Effect E w (.release t batch) (w.setFrame t (.freeing batch))
  | baseFree {t a batch u} (hf : w.frame t = .freeing (a :: batch))
      (hu : w.baseFree t a = some u) :
      Effect E w (.baseFree t)
        (u.setFrame t (if batch.isEmpty then .idle else .freeing batch))
  | readCached {c k access x v} (hx : w.ready c = some x)
      (hv : (w.readSync x).cached k = some v) :
      Effect E w (.read c k access) (w.setLocal c (w.readSync x))
  | readRestored {c k access x st v u} (hx : w.ready c = some x)
      (hn : (w.readSync x).cached k = none)
      (hst : x.o.props.hash.find k = some st)
      (hr : (w.setLocal c (w.readSync x)).restoreZval E x.z.owner st
        = (.value v, u)) :
      Effect E w (.read c k access) (u.setFrame x.z.owner (.fill c k v))
  | readThrew {c k access x st u} (hx : w.ready c = some x)
      (hr : (w.setLocal c (w.readSync x)).restoreZval E x.z.owner st
        = (.failed, u)) :
      Effect E w (.read c k access) u
  | readNothing {c k access x} (hx : w.ready c = some x) :
      Effect E w (.read c k access) (w.setLocal c (w.readSync x))
  | write {c key v x st} (hx : w.ready c = some x)
      (hh : w.holds E x.z.owner v = true)
      (hst : w.saveZval x.z.owner v = some st) :
      Effect E w (.write c key v)
        ((w.commit c x.s
          (w.writeStore x.z.owner x.z.loc x.o.props key st).2).setFrame
            x.z.owner (.fill c (x.o.props.member key) v))
  | delete {c k x} (hx : w.ready c = some x)
      (hk : x.o.props.hash.contains k = true) :
      Effect E w (.delete c k)
        ((w.commit c x.s (bumpIf (memberIsCacheable x.o.props.hash k) x.z.loc
          (x.o.props.delete k))).setFrame x.z.owner (.drop c k))
  | deleteNothing {c k x} (hx : w.ready c = some x)
      (hk : x.o.props.hash.contains k = false) :
      Effect E w (.delete c k)
        (w.commit c x.s (x.z.loc, x.o.props.delete k))
  | fill {t c k v} (hf : w.frame t = .fill c k v) :
      Effect E w (.finish t) ((w.updateLocalProperty c k v).setFrame t .idle)
  | drop {t c k} (hf : w.frame t = .drop c k) :
      Effect E w (.finish t)
        ({ w with mem := w.mem.modify c fun z =>
          { z with loc := z.loc.del k } }.setFrame t .idle)
  | take {act c x e p r u} (hx : w.ready c = some x)
      (ht : TakesBy act c x.o.props e p)
      (hr : w.restoreZval E x.z.owner e.2 = (r, u)) (hne : r ≠ .fault) :
      Effect E w act (u.commit c x.s (afterTake x e p))
  | takeNothing {act c x} (hact : act = .shift c ∨ act = .pop c)
      (hx : w.ready c = some x) : Effect E w act w
  | chunk {c size x r} (hx : w.ready c = some x)
      (hr : w.restoreAll E x.z.owner (x.o.props.chunk size).1 = some r) :
      Effect E w (.chunk c size)
        (r.2.commit c x.s (afterChunk x (x.o.props.chunk size).1
          (x.o.props.chunk size).2))
  | merge {c source overwrite x y es} (hx : w.ready c = some x)
      (hy : w.ready source = some y)
      (hes : w.hardCopyAll y.o.props.hash.entries = some es) :
      Effect E w (.merge c source overwrite)
        (w.commit c x.s (afterMerge x overwrite es))
  | tohash {c own x r l} (hx : w.ready c = some x)
      (hr : w.restoreAll E x.z.owner
        (uncached (w.tohashSync x) x.o.props.hash) = some r)
      (hl : l = w.tohashSync x
        ∨ own = true ∧ l = { addIndirect x.z.declared
            (putAll x.z.declared (w.tohashSync x) r.1) with
            modcount := x.o.props.modcount - 1 }) :
      Effect E w (.tohash c own) (r.2.setLocal c l)
  | sync {c x} (hx : w.ready c = some x) :
      Effect E w (.sync c)
        (w.setLocal c (w.syncLocal x.z.owner x.o.props x.z.loc))
  | fullSync {c x fuel u} (hx : w.ready c = some x)
      (hu : World.fullSync E x.z.owner fuel [] w c = some u) :
      Effect E w (.fullSync c fuel) u
  | join {x cx fuel u} (hx : w.ready x = some cx)
      (hu : joinSync E fuel w cx.z.owner x = some u) :
      Effect E w (.join x fuel) u

/-- The part of a write under the lock, for a live connection. -/
theorem writeLocked_eq {c : Addr} {x : Conn} (hx : w.conn c = some x)
    (key : Option Key) (v : Zval) :
    w.writeLocked c key v = (w.saveZval x.z.owner v).map fun st =>
      (x.o.props.member key,
        w.commit c x.s (w.writeStore x.z.owner x.z.loc x.o.props key st).2) := by
  obtain ⟨hz, hs, ho⟩ := conn_eq_some.mp hx
  unfold writeLocked
  simp only [hz, hs, ho]
  cases w.saveZval x.z.owner v with
  | none => rfl
  | some st => rfl

/-- Each call in the words of `Effect`: a read, -/
theorem effect_read {c : Addr} {k : Key} {access : Access} {x : Conn}
    (hx : w.ready c = some x)
    (h : afterRead x.z.owner c k (w.readLocked E c k access) = some w') :
    Effect E w (.read c k access) w' := by
  obtain ⟨hc, hf⟩ := ready_eq_some.mp hx
  unfold readLocked at h
  rw [hc] at h
  simp only [] at h
  cases hv : (w.readSync x).cached k with
  | some v =>
      rw [hv] at h
      injection h with h
      rw [← h]
      exact .readCached hx hv
  | none =>
      rw [hv] at h
      simp only [] at h
      unfold readShared at h
      simp only [] at h
      split at h
      case isTrue =>
        injection h with h
        rw [← h]
        exact .readNothing hx
      case isFalse =>
        cases hst : x.o.props.hash.find k with
        | none =>
            rw [hst] at h
            injection h with h
            rw [← h]
            exact .readNothing hx
        | some st =>
            rw [hst] at h
            simp only [] at h
            rcases hr : (w.setLocal c (w.readSync x)).restoreZval E
              x.z.owner st with ⟨r, u⟩
            rw [hr] at h
            cases r with
            | value v =>
                injection h with h
                rw [← h]
                exact .readRestored hx hv hst hr
            | failed =>
                injection h with h
                rw [← h]
                exact .readThrew hx hr
            | fault => cases h

/-- a shift or a pop, -/
theorem effect_take {act : Act} {c : Addr} {x : Conn}
    {r : Option (Key × Storage) × Store Storage} {res : Restored × World}
    (hx : w.ready c = some x)
    (hr : act = .shift c ∧ x.o.props.shift = r
      ∨ act = .pop c ∧ x.o.props.pop = r)
    (h : w.takeEntry E c x r = some res) : Effect E w act res.2 := by
  obtain ⟨re, p⟩ := r
  unfold takeEntry at h
  cases re with
  | none =>
      injection h with h
      rw [← h]
      exact .takeNothing (hr.imp And.left And.left) hx
  | some e =>
      simp only [] at h
      rcases hres : w.restoreZval E x.z.owner e.2 with ⟨v, u⟩
      rw [hres] at h
      cases v with
      | fault => cases h
      | value v =>
          injection h with h
          rw [← h]
          exact .take hx hr hres (by simp)
      | failed =>
          injection h with h
          rw [← h]
          exact .take hx hr hres (by simp)

theorem addIndirect_eq_self {declared ks : List Key} {l : Local}
    (h : ∀ k ∈ ks, l.table.contains k = true) :
    ks.foldl (fun l k => if l.table.contains k then l
      else l.put declared k .indirect) l = l := by
  induction ks with
  | nil => rfl
  | cons k ks ih =>
      rw [List.foldl_cons, if_pos (h k List.mem_cons_self)]
      exact ih fun k' hk' => h k' (List.mem_cons_of_mem _ hk')

/-- and `pmmpthread_store_tohash`. -/
theorem effect_tohash {c : Addr} {own : Bool} {x : Conn}
    (hx : w.ready c = some x) (h : w.storeTohash E c own = some w') :
    Effect E w (.tohash c own) w' := by
  obtain ⟨hc, -⟩ := ready_eq_some.mp hx
  unfold storeTohash at h
  rw [hc] at h
  obtain ⟨r, hr, h⟩ := Option.map_eq_some_iff.mp h
  rw [← h]
  cases own with
  | false => exact .tohash hx hr (Or.inl rfl)
  | true =>
      simp only [if_true]
      refine .tohash hx hr ?_
      split
      case isTrue => exact Or.inr ⟨rfl, rfl⟩
      case isFalse hn =>
        simp only [Bool.or_eq_true, not_or, Bool.not_eq_true',
          Bool.not_eq_false, List.isEmpty_iff, List.any_eq_true,
          not_exists, not_and] at hn
        have hr0 : r.1 = [] := by
          rw [hn.1] at hr
          exact congrArg Prod.fst (Option.some.inj hr).symm
        rw [hr0] at hn ⊢
        exact Or.inl (addIndirect_eq_self hn.2)

/-- Every step is one of the effects. -/
theorem step_effect {act : Act} (h : step E w act = some w') :
    Effect E w act w' := by
  cases act with
  | newString t b =>
      obtain ⟨hf, h⟩ := Option.ite_none_right_eq_some.mp h
      rw [← Option.some.inj h]
      exact .newString (isIdle_iff.mp hf)
  | freeString p =>
      obtain ⟨hf, h⟩ := Option.ite_none_right_eq_some.mp h
      rw [← Option.some.inj h]
      exact .freeString hf
  | newClosure cl =>
      obtain ⟨hf, h⟩ := Option.ite_none_right_eq_some.mp h
      rw [← Option.some.inj h]
      rw [Bool.and_eq_true] at hf
      exact .newClosure (isIdle_iff.mp hf.1)
  | freeClosure p =>
      obtain ⟨-, h⟩ := Option.ite_none_right_eq_some.mp h
      rw [← Option.some.inj h]
      exact .freeClosure
  | alloc t declared scope defaults =>
      obtain ⟨hf, h⟩ := Option.ite_none_right_eq_some.mp h
      rw [← Option.some.inj h]
      rw [Bool.and_eq_true, List.all_eq_true] at hf
      exact .alloc (isIdle_iff.mp hf.1) hf.2
  | ctor t =>
      simp only [step] at h
      split at h
      case h_1 a scope defaults hf =>
        obtain ⟨u, hu, h⟩ := Option.map_eq_some_iff.mp h
        rw [← h]
        exact .ctor hf hu
      case h_2 => cases h
  | connect t a =>
      obtain ⟨hf, h⟩ := Option.ite_none_right_eq_some.mp h
      have he := Effect.connect (E := E) (a := a) (isIdle_iff.mp hf)
      split at h
      case h_1 => cases h
      case h_2 r u _ hu =>
        rw [← Option.some.inj h]
        rw [hu] at he
        exact he
  | bindGlobals a =>
      obtain ⟨x, hx, h⟩ := Option.map_eq_some_iff.mp h
      rw [← h]
      exact .bindGlobals hx
  | addGarbage x a =>
      simp only [step] at h
      split at h
      case h_1 cx ca hx ha =>
        obtain ⟨hg, h⟩ := Option.ite_none_right_eq_some.mp h
        rw [← Option.some.inj h]
        exact .addGarbage hx ha hg.1 hg.2.1 hg.2.2
      case h_2 => cases h
  | collect x =>
      obtain ⟨cx, hx, h⟩ := Option.map_eq_some_iff.mp h
      rw [← h]
      exact .collect hx
  | release t batch =>
      obtain ⟨hg, h⟩ := Option.ite_none_right_eq_some.mp h
      rw [← Option.some.inj h]
      exact .release hg
  | baseFree t =>
      simp only [step] at h
      split at h
      case h_1 a batch hf =>
        obtain ⟨u, hu, h⟩ := Option.map_eq_some_iff.mp h
        rw [← h]
        exact .baseFree hf hu
      case h_2 => cases h
  | read c k access =>
      obtain ⟨x, hx, h⟩ := Option.bind_eq_some_iff.mp h
      exact effect_read hx h
  | write c key v =>
      obtain ⟨x, hx, h⟩ := Option.bind_eq_some_iff.mp h
      obtain ⟨hh, h⟩ := Option.ite_none_right_eq_some.mp h
      rw [writeLocked_eq (ready_eq_some.mp hx).1, Option.map_map] at h
      obtain ⟨st, hst, h⟩ := Option.map_eq_some_iff.mp h
      rw [← h]
      exact .write hx hh hst
  | delete c k =>
      obtain ⟨x, hx, h⟩ := Option.bind_eq_some_iff.mp h
      unfold deleteLocked at h
      rw [(ready_eq_some.mp hx).1] at h
      cases hk : x.o.props.hash.contains k with
      | true =>
          simp only [Option.map_some, hk, Bool.true_and, if_true] at h
          rw [← Option.some.inj h]
          exact .delete hx hk
      | false =>
          simp only [Option.map_some, hk, Bool.false_and] at h
          rw [← Option.some.inj h]
          exact .deleteNothing hx hk
  | finish t =>
      simp only [step, finish] at h
      split at h
      case h_1 c k v hf =>
        rw [← Option.some.inj h]
        exact .fill hf
      case h_2 c k hf =>
        rw [← Option.some.inj h]
        exact .drop hf
      case h_3 => cases h
  | shift c =>
      obtain ⟨x, hx, h⟩ := Option.bind_eq_some_iff.mp h
      obtain ⟨r, hr, h⟩ := Option.map_eq_some_iff.mp h
      unfold storeShift at hr
      rw [(ready_eq_some.mp hx).1] at hr
      rw [← h]
      exact effect_take hx (Or.inl ⟨rfl, rfl⟩) hr
  | pop c =>
      obtain ⟨x, hx, h⟩ := Option.bind_eq_some_iff.mp h
      obtain ⟨r, hr, h⟩ := Option.map_eq_some_iff.mp h
      unfold storePop at hr
      rw [(ready_eq_some.mp hx).1] at hr
      rw [← h]
      exact effect_take hx (Or.inr ⟨rfl, rfl⟩) hr
  | chunk c size =>
      obtain ⟨x, hx, h⟩ := Option.bind_eq_some_iff.mp h
      obtain ⟨r, hr, h⟩ := Option.map_eq_some_iff.mp h
      unfold storeChunk at hr
      rw [(ready_eq_some.mp hx).1] at hr
      obtain ⟨vs, hvs, hr⟩ := Option.map_eq_some_iff.mp hr
      rw [← h, ← hr]
      exact .chunk hx hvs
  | merge c source overwrite =>
      obtain ⟨x, hx, h⟩ := Option.bind_eq_some_iff.mp h
      obtain ⟨y, hy, h⟩ := Option.bind_eq_some_iff.mp h
      obtain ⟨-, h⟩ := Option.ite_none_right_eq_some.mp h
      unfold storeMerge at h
      rw [(ready_eq_some.mp hx).1, (ready_eq_some.mp hy).1] at h
      obtain ⟨es, hes, h⟩ := Option.map_eq_some_iff.mp h
      rw [← h]
      exact .merge hx hy hes
  | tohash c own =>
      obtain ⟨x, hx, h⟩ := Option.bind_eq_some_iff.mp h
      exact effect_tohash hx h
  | sync c =>
      obtain ⟨x, hx, h⟩ := Option.map_eq_some_iff.mp h
      rw [← h]
      exact .sync hx
  | fullSync c fuel =>
      obtain ⟨x, hx, h⟩ := Option.bind_eq_some_iff.mp h
      exact .fullSync hx h
  | join x fuel =>
      obtain ⟨cx, hx, h⟩ := Option.bind_eq_some_iff.mp h
      obtain ⟨-, h⟩ := Option.ite_none_right_eq_some.mp h
      exact .join hx h

end PmmpThread.Model.World
