/-
Reads with and without a cached value.

`pmmpthread_store_read` answers from the local table before it looks at
the access type, and it restores a value only if there is no answer. Two
reads that differ only in what is cached are compared by what their
outcomes mean (`Agree`): restored strings, closures and connections are
new, so their addresses say nothing.

# How restoring ends

`restoreFate` says how restoring a storage ends from the world as it is
before: which objects are live, which closures are, and what the thread
knows. It does not depend on local tables, which is why two uncached
reads always agree.
-/
import PmmpThread.Model.Faults
import PmmpThread.Proofs.Coherence

namespace PmmpThread.Zend.Heap

/-- Two changes of one cell are one. -/
theorem modify_modify_self {α : Type} (h : Heap α) (a : Nat) (f g : α → α) :
    (h.modify a f).modify a g = h.modify a fun x => g (f x) := by
  have hc : modifyCells (modifyCells h.cells a f) a g
      = modifyCells h.cells a fun x => g (f x) := by
    unfold modifyCells
    cases hx : h.cells.lookup a with
    | none =>
        simp only []
        rw [hx]
    | some x =>
        simp only []
        rw [AList.lookup_insert]
        exact AList.insert_insert _
  unfold modify
  congr 1

end PmmpThread.Zend.Heap

namespace PmmpThread.Model.World

open Zend

variable {E : Engine} {t : ThreadId} {w w' : World}

-- ==================================================== how connecting ends

inductive Fate where
  | value
  | failed
  | fault
  deriving DecidableEq

def Connected.fate : Connected → Fate
  | .ok _ => .value
  | .gone | .failed => .failed
  | .fault => .fault

/-- How `pmmpthread_object_connect` ends, by the world before it: there is
nothing to connect to, or an object of another thread between its
allocation and its constructor, or its class cannot be initialised. -/
def connectFate (E : Engine) (w : World) (t : ThreadId) (a : Addr) : Fate :=
  if (w.mem.get a).isNone then .failed
  else if w.unbuilt t a then .fault
  else if w.connectable E t a then .value
  else .failed

theorem unbuilt_eq (E : Engine) (w : World) (t : ThreadId) (a : Addr) :
    w.unbuilt t a = decide (w.connectFate E t a = .fault) := by
  unfold connectFate
  cases hz : w.mem.get a with
  | none =>
      unfold unbuilt
      rw [hz]
      rfl
  | some z =>
      cases w.unbuilt t a with
      | true => rfl
      | false => cases w.connectable E t a <;> rfl

/-- A live, constructed object can be connected to or its class cannot be
initialised. -/
theorem connectFate_of_tsOf {a : Addr} {s : TsAddr}
    (hts : w.tsOf a = some s) : w.connectFate E t a
      = if w.connectable E t a then .value else .failed := by
  obtain ⟨z, hz, hzs⟩ := Option.bind_eq_some_iff.mp hts
  unfold connectFate unbuilt
  rw [hz, Option.any_some, hzs]
  simp only [Option.isNone_some, Bool.and_false, Bool.false_eq_true, if_false]

theorem objectConnect_fate (hs : Skel w) (t : ThreadId) (a : Addr) :
    (w.objectConnect E t a).1.fate = w.connectFate E t a := by
  cases hz : w.mem.get a with
  | none =>
      rw [objectConnect_gone hs hz]
      unfold connectFate
      rw [hz]
      rfl
  | some z =>
      cases hts : z.tsObj with
      | some s =>
          have hts' : w.tsOf a = some s :=
            (tsOf_of_get hz).trans hts
          rw [connectFate_of_tsOf hts']
          cases hcan : w.connectable E t a with
          | true =>
              obtain ⟨l, hl, -⟩ := objectConnect_ts hs hts' hcan
              rw [hl]
              rfl
          | false =>
              rw [objectConnect_failed (hs.connecting t) hcan]
              rfl
      | none =>
          have hvalid : w.objectValid a = true :=
            decide_eq_true ((hs.objects a).mpr (by rw [hz]; rfl))
          unfold connectFate unbuilt
          by_cases ho : z.owner = t
          · have hfind : w.findConnection t a = some (.ok a) := by
              unfold findConnection
              rw [if_pos hvalid, hz]
              simp only [if_pos ho]
            unfold objectConnect connectable
            rw [hfind, hz]
            simp [ho, Connected.fate]
          · have hfind : w.findConnection t a = none := by
              unfold findConnection
              rw [if_pos hvalid, hz]
              simp only [if_neg ho, hts, Option.bind_none, Option.map_none]
            rw [objectConnect_create (hs.connecting t) hfind hz, hts, hz]
            simp [ho, hts, Connected.fate]

theorem objectConnect_ne_gone (hs : Skel w) {a : Addr} {z : ZObj}
    (hz : w.mem.get a = some z) : (w.objectConnect E t a).1 ≠ .gone := by
  have hvalid : w.objectValid a = true :=
    decide_eq_true ((hs.objects a).mpr (by rw [hz]; rfl))
  unfold objectConnect
  cases hf : w.findConnection t a with
  | some r =>
      rintro rfl
      unfold findConnection at hf
      rw [if_pos hvalid, hz] at hf
      simp only at hf
      split at hf
      · cases hf
      · obtain ⟨l, -, hl⟩ := Option.map_eq_some_iff.mp hf
        cases hl
  | none =>
      simp only []
      split
      · split
        · exact fun h => by cases h
        · exact fun h => by cases h
      · exact fun h => by cases h

/-- A connection leads to the object it was made for. -/
theorem objectConnect_same (hs : Skel w) {a l : Addr} {u : World}
    (h : w.objectConnect E t a = (.ok l, u)) :
    u.birthOf l = w.birthOf a := by
  cases hb : w.birthOf a with
  | some b =>
      have hcan : w.connectable E t a = true := by
        by_contra hno
        rw [objectConnect_failed (hs.connecting t)
          (Bool.eq_false_iff.mpr hno)] at h
        cases h
      obtain ⟨l', hl', hb'⟩ := objectConnect_birth hs hb hcan
      rw [h] at hl' hb'
      injection hl' with hl'
      rw [hl']
      exact hb'
  | none =>
      have hts : w.tsOf a = none := by
        cases hts : w.tsOf a with
        | none => rfl
        | some s =>
            obtain ⟨z, hz, hzs⟩ := Option.bind_eq_some_iff.mp hts
            obtain ⟨o, ho⟩ := hs.tsLive hz hzs
            unfold birthOf at hb
            rw [hts, Option.bind_some, ho] at hb
            cases hb
      unfold objectConnect at h
      cases hf : w.findConnection t a with
      | none =>
          obtain ⟨-, z, hz, -, -⟩ := findConnection_none hf
          have hzs : z.tsObj = none :=
            (tsOf_of_get hz).symm.trans hts
          have hno := objectConnect_create (E := E) (hs.connecting t) hf hz
          unfold objectConnect at hno
          rw [h, hzs] at hno
          cases hno
      | some r =>
          rw [hf] at h
          obtain ⟨hr, rfl⟩ := Prod.mk.inj h
          subst hr
          unfold findConnection at hf
          split at hf
          case isFalse => cases hf
          case isTrue =>
            cases hz : w.mem.get a with
            | none =>
                rw [hz] at hf
                cases hf
            | some z =>
                have hzs : z.tsObj = none :=
                  (tsOf_of_get hz).symm.trans hts
                simp only [hz, hzs, Option.bind_none, Option.map_none] at hf
                split at hf
                · injection hf with hf
                  injection hf with hf
                  rw [← hf]
                  exact hb
                · cases hf

/-- Connecting makes no object unbuilt. -/
theorem GrowStep.unbuilt (h : GrowStep E t w w') (a : Addr) :
    w'.unbuilt t a = w.unbuilt t a := by
  cases h with
  | string b => rfl
  | closure cl => rfl
  | @connection a' z s hvalid hz howner hzs hres =>
      unfold World.unbuilt addConnection
      simp only [Heap.get_place]
      by_cases ha : a = w.mem.next E.object
      · simp [ha, Heap.get_next, connectionTo]
      · rw [if_neg ha]

theorem Grow.unbuilt (h : Grow E t w w') (a : Addr) :
    w'.unbuilt t a = w.unbuilt t a := by
  induction h with
  | refl => rfl
  | tail _ h ih => rw [h.unbuilt, ih]

-- ===================================================== how restoring ends

def Restored.fate : Restored → Fate
  | .value _ => .value
  | .failed => .failed
  | .fault => .fault

theorem useFaults_congr (h : ∀ a, w'.unbuilt t a = w.unbuilt t a) :
    w'.useFaults t = w.useFaults t := by
  funext u
  cases u with
  | object a => exact h a
  | null => rfl
  | uninit => rfl

theorem Grow.useFaults (h : Grow E t w w') :
    w'.useFaults t = w.useFaults t :=
  useFaults_congr h.unbuilt

theorem copyStatics_isSome (us : List (Use Addr)) :
    ∀ {w : World}, Skel w →
      (w.copyStatics E t us).isSome = !us.any (w.useFaults t) := by
  induction us with
  | nil => exact fun _ => rfl
  | cons u us ih =>
      intro w hs
      rw [List.any_cons]
      cases u with
      | uninit => rfl
      | null =>
          show ((w.copyStatics E t us).map _).isSome = _
          rw [Option.isSome_map]
          exact ih hs
      | object a =>
          have hg := objectConnect_grow (E := E) (hs.connecting t) a
          have hrec := ih (hs.grow hg)
          rw [hg.useFaults] at hrec
          have hun : w.unbuilt t a
              = ((w.objectConnect E t a).1.use).isNone := by
            rw [unbuilt_eq E, ← objectConnect_fate hs]
            cases (w.objectConnect E t a).1 <;> rfl
          show ((w.objectConnect E t a).1.use.bind fun u => _).isSome
            = !(w.unbuilt t a || us.any (w.useFaults t))
          rw [hun]
          cases (w.objectConnect E t a).1.use with
          | none => rfl
          | some v =>
              rw [Option.bind_some, Option.isSome_map]
              exact hrec

/-- How copying a closure ends once its `$this` is connected. -/
def boundFate (E : Engine) (w : World) (t : ThreadId) (cl : Closure) : Fate :=
  if cl.fake then
    if E.functionKnown t cl.body then .value else .failed
  else if cl.uses.any (w.useFaults t) then .fault
  else .value

theorem copyBound_fate (hs : Skel w) (cl : Closure) (thisObj : Option Addr) :
    Restored.fate (w.copyBound E t cl thisObj).1 = w.boundFate E t cl := by
  unfold copyBound boundFate
  split
  case isTrue =>
    split
    · rfl
    · rfl
  case isFalse =>
    have hsome := copyStatics_isSome (E := E) (t := t) cl.uses hs
    cases hall : w.copyStatics E t cl.uses with
    | none =>
        rw [hall] at hsome
        rw [if_pos (by simpa using hsome.symm)]
        rfl
    | some r =>
        rw [hall] at hsome
        rw [if_neg (by simpa using hsome.symm)]
        rfl

/-- How connecting to `$this` ends for the closure: null in its place is
no reason to fail. -/
def thisFate (w : World) (t : ThreadId) (a : Addr) : Fate :=
  if (w.mem.get a).isNone then .failed
  else if w.unbuilt t a then .fault
  else .value

/-- How restoring ends, by the world before it. -/
def closureFate (E : Engine) (w : World) (t : ThreadId) (p : ClosurePtr) :
    Fate :=
  match w.closures[p]? with
  | none => .fault
  | some cl =>
      if cl.live then
        match cl.thisObj with
        | none => w.boundFate E t cl
        | some a =>
            match w.thisFate t a with
            | .value => w.boundFate E t cl
            | f => f
      else .fault

def restoreFate (E : Engine) (w : World) (t : ThreadId) : Storage → Fate
  | .stringPtr _ p _ => if (w.strings.get p).isSome then .value else .fault
  | .closure p _ _ => w.closureFate E t p
  | .object a _ => w.connectFate E t a
  | .enumCase cls name =>
      if E.enumResolves t cls name then .value
      else if E.enumLoaded t cls then .failed else .fault
  | _ => .value

theorem copyClosure_fate (hs : Skel w) (p : ClosurePtr) :
    Restored.fate (w.copyClosure E t p).1 = w.closureFate E t p := by
  unfold copyClosure closureFate
  cases hp : w.closures[p]? with
  | none => rfl
  | some cl =>
      simp only []
      split
      case isFalse => rfl
      case isTrue =>
        cases cl.thisObj with
        | none => exact copyBound_fate hs cl none
        | some a =>
            have hg := objectConnect_grow (E := E) (hs.connecting t) a
            have hfate := objectConnect_fate (E := E) hs t a
            have hbound : ∀ o, Restored.fate
                ((w.objectConnect E t a).2.copyBound E t cl o).1
                  = w.boundFate E t cl := by
              intro o
              rw [copyBound_fate (hs.grow hg)]
              unfold boundFate
              rw [hg.useFaults]
            cases hz : w.mem.get a with
            | none =>
                simp only [objectConnect_gone hs hz]
                simp only [thisFate, hz, Option.isNone_none, if_true]
                rfl
            | some z =>
                have hlive := objectConnect_ne_gone (E := E) (t := t) hs hz
                simp only [thisFate, hz, Option.isNone_some,
                  unbuilt_eq E, ← hfate]
                rcases hc : w.objectConnect E t a with ⟨r, u⟩
                rw [hc] at hbound hlive
                cases r with
                | ok l => exact hbound (some l)
                | gone => exact absurd rfl hlive
                | failed => exact hbound none
                | fault => rfl

theorem restoreZval_fate (hs : Skel w) (st : Storage) :
    Restored.fate (w.restoreZval E t st).1 = w.restoreFate E t st := by
  cases st with
  | string permanent b => cases permanent <;> rfl
  | stringPtr owner p b =>
      change Restored.fate (w.restoreStringPtr E t owner p).1
        = if (w.strings.get p).isSome then .value else .fault
      unfold restoreStringPtr
      cases hp : w.strings.get p with
      | none => rfl
      | some s =>
          simp only []
          split
          · rfl
          · rfl
  | closure p thisObj owner => exact copyClosure_fate hs p
  | object a b =>
      change _ = w.connectFate E t a
      rw [← objectConnect_fate (E := E) hs t a]
      rcases hc : w.objectConnect E t a with ⟨r, u⟩
      simp only [restoreZval, hc]
      cases r <;> rfl
  | enumCase cls name =>
      simp only [restoreZval, restoreFate]
      split
      · rfl
      · split <;> rfl
  | _ => rfl

theorem unbuilt_modify (w : World) (c : Addr) (f : ZObj → Local)
    (t : ThreadId) (a : Addr) :
    World.unbuilt { w with mem := w.mem.modify c fun z =>
      { z with loc := f z } } t a = w.unbuilt t a := by
  unfold unbuilt
  simp only [Heap.get_modify]
  by_cases ha : a = c
  · rw [if_pos ha]
    cases w.mem.get a <;> rfl
  · rw [if_neg ha]

theorem connectable_modify (E : Engine) (w : World) (c : Addr)
    (f : ZObj → Local) (t : ThreadId) (a : Addr) :
    World.connectable E { w with mem := w.mem.modify c fun z =>
      { z with loc := f z } } t a = w.connectable E t a := by
  have hfind : World.findConnection { w with mem := w.mem.modify c fun z =>
      { z with loc := f z } } t a = w.findConnection t a := by
    unfold findConnection
    simp only [Heap.get_modify]
    by_cases ha : a = c
    · rw [if_pos ha]
      cases w.mem.get a <;> rfl
    · rw [if_neg ha]
      rfl
  have hbirth : World.birthOf { w with mem := w.mem.modify c fun z =>
      { z with loc := f z } } a = w.birthOf a :=
    birthOf_modify w c a fun _ => rfl
  unfold connectable initializes
  rw [hfind, hbirth]

/-- A thread can connect to what it has a connection to. -/
theorem connectable_of_owner (hs : Skel w) {a l : Addr} {s : TsAddr}
    {z : ZObj} (ha : w.tsOf a = some s) (hl : w.mem.get l = some z)
    (ho : z.owner = t) (hts : z.tsObj = some s) :
    w.connectable E t a = true := by
  obtain ⟨za, hza, hsa⟩ := Option.bind_eq_some_iff.mp ha
  have hvalid : w.objectValid a = true :=
    decide_eq_true ((hs.objects a).mpr (by rw [hza]; rfl))
  have hres : w.resolve t s = some l := ho ▸ hs.resolveAll hl hts
  unfold connectable findConnection
  rw [if_pos hvalid, hza]
  simp only [hsa, Option.bind_some, hres, Option.map_some]
  split <;> rfl

/-- A thread connects to an object that it has a connection to, or whose
class it can initialise. -/
theorem connectable_iff (hs : Skel w) {a : Addr} {s : TsAddr}
    (ha : w.tsOf a = some s) :
    w.connectable E t a = true
      ↔ (∃ l z, w.mem.get l = some z ∧ z.owner = t ∧ z.tsObj = some s)
        ∨ w.initializes E t a = true := by
  constructor
  · intro h
    refine (Bool.or_eq_true_iff.mp h).imp_left fun hf => ?_
    obtain ⟨z, hz, hts⟩ := Option.bind_eq_some_iff.mp ha
    have hvalid : w.objectValid a = true :=
      decide_eq_true ((hs.objects a).mpr (by rw [hz]; rfl))
    unfold findConnection at hf
    rw [if_pos hvalid, hz] at hf
    simp only [hts, Option.bind_some] at hf
    split at hf
    case isTrue ho => exact ⟨a, z, hz, ho, hts⟩
    case isFalse =>
      cases hres : w.resolve t s with
      | none =>
          rw [hres] at hf
          cases hf
      | some l =>
          obtain ⟨zl, hzl, hol, hsl⟩ := hs.resolveLive hres
          exact ⟨l, zl, hzl, hol, hsl⟩
  · rintro (⟨l, z, hl, ho, hts⟩ | h)
    · exact connectable_of_owner hs ha hl ho hts
    · unfold connectable
      rw [h, Bool.or_true]

/-- It can do so for as long as its connection and the object are there. -/
theorem connectable_mono (hs : Skel w) (hs' : Skel w')
    (hmem : ∀ {a z}, w.mem.get a = some z →
      ∃ l, w'.mem.get a = some { z with loc := l })
    (hbirth : ∀ {a b}, w.birthOf a = some b → w'.birthOf a = some b)
    {a : Addr} {b : Nat} (ha : w.birthOf a = some b)
    (h : w.connectable E t a = true) : w'.connectable E t a = true := by
  obtain ⟨o, ho, -⟩ := Option.map_eq_some_iff.mp ha
  obtain ⟨s, hts, -⟩ := Option.bind_eq_some_iff.mp ho
  have hts' : w'.tsOf a = some s := by
    obtain ⟨z, hz, hzs⟩ := Option.bind_eq_some_iff.mp hts
    obtain ⟨l, hl⟩ := hmem hz
    exact (tsOf_of_get hl).trans hzs
  refine (connectable_iff hs' hts').mpr
    (((connectable_iff hs hts).mp h).imp ?_ fun hi => ?_)
  · rintro ⟨l, z, hl, hown, hs⟩
    obtain ⟨c, hc⟩ := hmem hl
    exact ⟨l, _, hc, hown, hs⟩
  · unfold initializes at hi ⊢
    rw [hbirth ha]
    rwa [ha] at hi

/-- Where connecting fails, the object is there. -/
theorem tsOf_of_not_connectable {a : Addr}
    (h : w.connectable E t a = false) : ∃ s, w.tsOf a = some s := by
  obtain ⟨-, hi⟩ := Bool.or_eq_false_iff.mp h
  unfold initializes birthOf at hi
  cases hts : w.tsOf a with
  | some s => exact ⟨s, rfl⟩
  | none =>
      rw [hts] at hi
      cases hi

/-- The connections that a thread makes are no help with other classes. -/
theorem GrowStep.connectable (h : GrowStep E t w w') {a : Addr} {s : TsAddr}
    (ha : w.tsOf a = some s) :
    w'.connectable E t a = w.connectable E t a := by
  cases h with
  | string b => rfl
  | closure cl => rfl
  | @connection a' z s' hvalid hz howner hzs hres hinit =>
      obtain ⟨za, hza, hsa⟩ := Option.bind_eq_some_iff.mp ha
      have hne : a ≠ w.mem.next E.object := Heap.ne_next_of_get hza
      have hmem : (w.addConnection E t s' z.declared).mem.get a = some za := by
        unfold addConnection
        rw [Heap.get_place, if_neg hne]
        exact hza
      have hbirth : (w.addConnection E t s' z.declared).birthOf a
          = w.birthOf a := by
        unfold birthOf
        rw [tsOf_of_get hmem, ha, hsa, Option.bind_some, Option.bind_some]
        unfold addConnection
        rw [Heap.get_modify]
        split
        · rw [Option.map_map]
          rfl
        · rfl
      have hvalid' : (w.addConnection E t s' z.declared).objectValid a
          = w.objectValid a := by
        refine decide_eq_decide.mpr ?_
        exact List.mem_insert_iff.trans (or_iff_right hne)
      by_cases hss : s = s'
      · -- the new connection is to the object itself
        have hi : w.initializes E t a = true := by
          unfold initializes birthOf at hinit ⊢
          rw [tsOf_of_get hz, hzs] at hinit
          rw [ha, hss]
          exact hinit
        unfold World.connectable World.initializes
        rw [hbirth]
        unfold World.initializes at hi
        rw [hi, Bool.or_true, Bool.or_true]
      · have hres' : (w.addConnection E t s' z.declared).resolve t s
            = w.resolve t s := by
          show Function.update w.resolve t _ t s = _
          rw [Function.update_self, Function.update_of_ne hss]
        have hfind : (w.addConnection E t s' z.declared).findConnection t a
            = w.findConnection t a := by
          unfold findConnection
          rw [hvalid', hmem, hza]
          simp only [hsa, Option.bind_some, hres']
        unfold World.connectable World.initializes
        rw [hfind, hbirth]

theorem Grow.connectable (h : Grow E t w w') {a : Addr} {s : TsAddr}
    (ha : w.tsOf a = some s) :
    w'.connectable E t a = w.connectable E t a := by
  induction h with
  | refl => rfl
  | tail hg hs ih =>
      have hu := Grow.extends hg
      rw [hs.connectable (hu.tsOf ha), ih]

section SetLocal

variable (w : World) (c : Addr) (l : Local)

theorem unbuilt_setLocal (t : ThreadId) (a : Addr) :
    (w.setLocal c l).unbuilt t a = w.unbuilt t a :=
  w.unbuilt_modify c (fun _ => l) t a

theorem isNone_setLocal (a : Addr) :
    ((w.setLocal c l).mem.get a).isNone = (w.mem.get a).isNone := by
  unfold setLocal
  simp only [Heap.get_modify]
  by_cases ha : a = c
  · rw [if_pos ha, Option.isNone_map]
  · rw [if_neg ha]

theorem connectFate_setLocal (E : Engine) (t : ThreadId) (a : Addr) :
    (w.setLocal c l).connectFate E t a = w.connectFate E t a := by
  have hcan : (w.setLocal c l).connectable E t a = w.connectable E t a :=
    connectable_modify E w c (fun _ => l) t a
  unfold connectFate
  rw [isNone_setLocal, unbuilt_setLocal, hcan]

theorem thisFate_setLocal (t : ThreadId) (a : Addr) :
    (w.setLocal c l).thisFate t a = w.thisFate t a := by
  unfold thisFate
  rw [isNone_setLocal, unbuilt_setLocal]

theorem useFaults_setLocal (t : ThreadId) :
    (w.setLocal c l).useFaults t = w.useFaults t :=
  useFaults_congr fun a => w.unbuilt_setLocal c l t a

theorem restoreFate_setLocal (E : Engine) (t : ThreadId) (st : Storage) :
    (w.setLocal c l).restoreFate E t st = w.restoreFate E t st := by
  cases st with
  | object a b => exact w.connectFate_setLocal c l E t a
  | closure p thisObj owner =>
      change (w.setLocal c l).closureFate E t p = w.closureFate E t p
      unfold closureFate boundFate
      simp only [thisFate_setLocal, useFaults_setLocal]
      rfl
  | _ => rfl

end SetLocal

-- ======================================================= what values mean

/-- The storage's value, as the world `w` has it: what a restored value
means in the world `u` after the restoring. -/
def Means (w u : World) : Storage → Zval → Prop
  | .string false b, v => ∃ q o, v = .string q ∧ u.strings.get q = some ⟨o, b⟩
  | .stringPtr _ p _, v => ∃ s q o, w.strings.get p = some s
      ∧ v = .string q ∧ u.strings.get q = some ⟨o, s.bytes⟩
  | .closure q _ _, v => ∃ p cl cl', v = .closure p
      ∧ w.closures[q]? = some cl ∧ u.closures[p]? = some cl'
      ∧ cl'.body = cl.body
  | .object a _, v => ∃ l, v = .object l ∧ u.birthOf l = w.birthOf a
  | .null, v => v = .null
  | .bool b, v => v = .bool b
  | .long n, v => v = .long n
  | .double d, v => v = .double d
  | .string true b, v => v = .interned b
  | .socket s, v => ∃ s', v = .socket s' ∧ s'.bsdSocket = s.bsdSocket
  | .enumCase cls name, v => v = .enumCase cls name

theorem restoreZval_means (hs : Skel w) {st : Storage} {v : Zval}
    {u : World} (h : w.restoreZval E t st = (.value v, u)) :
    Means w u st v := by
  cases st with
  | object a b =>
      rcases hc : w.objectConnect E t a with ⟨r, u'⟩
      simp only [restoreZval, hc] at h
      cases r with
      | ok l =>
          injection h with hv hu
          injection hv with hv
          rw [← hu]
          exact ⟨l, hv.symm, objectConnect_same hs hc⟩
      | gone => cases h
      | failed => cases h
      | fault => cases h
  | stringPtr owner p b =>
      simp only [restoreZval, restoreStringPtr] at h
      cases hp : w.strings.get p with
      | none =>
          rw [hp] at h
          cases h
      | some s =>
          rw [hp] at h
          simp only [] at h
          split at h
          · injection h with hv hu
            injection hv with hv
            rw [← hu]
            exact ⟨s, p, s.owner, hp, hv.symm, hp⟩
          · injection h with hv hu
            injection hv with hv
            refine ⟨s, _, t, hp, hv.symm, ?_⟩
            rw [← hu]
            exact Heap.get_place_self _ _ _
  | closure q thisObj owner =>
      have hg := copyClosure_grow (E := E) (hs.connecting t) q
      change w.copyClosure E t q = (.value v, u) at h
      rw [h] at hg
      obtain ⟨p, cl, cl', hv, hq, hp, hb⟩ :=
        copyClosure_body (hs.connecting t) h
      cases hw : w.closures[q]? with
      | none =>
          unfold copyClosure at h
          rw [hw] at h
          cases h
      | some cl₀ =>
          obtain ⟨hlt, heq⟩ := List.getElem?_eq_some_iff.mp hw
          have hq' := List.prefix_iff_getElem?.mp hg.extends.closures q hlt
          rw [hq, heq] at hq'
          rw [Option.some.inj hq'] at hb
          exact ⟨p, cl₀, cl', hv, hw, hp, hb⟩
  | string permanent b =>
      have hsound : Sound w (.string permanent b) := trivial
      have hd := restoreZval_denotes hs hsound h
      cases permanent with
      | true => exact hd
      | false => exact hd
  | _ =>
      refine restoreZval_denotes hs ?_ h
      trivial

/-- Two values of one thread in two worlds are the same to PHP code: the
same bytes, the same code, the same descriptor, the same object. -/
def SameValue (u u' : World) : Zval → Zval → Prop
  | .string p, .string p' => ∃ s s', u.strings.get p = some s
      ∧ u'.strings.get p' = some s' ∧ s.bytes = s'.bytes
  | .closure p, .closure p' => ∃ cl cl', u.closures[p]? = some cl
      ∧ u'.closures[p']? = some cl' ∧ cl.body = cl'.body
  | .socket s, .socket s' => s.bsdSocket = s'.bsdSocket
  | .object a, .object a' => u.birthOf a = u'.birthOf a'
  | v, v' => v = v'

/-- Values that mean the same storage are the same. -/
theorem Means.sameValue {u u' : World} {st : Storage} {v v' : Zval}
    (h : Means w u st v) (h' : Means w u' st v') : SameValue u u' v v' := by
  cases st with
  | string permanent b =>
      cases permanent with
      | true =>
          rw [show v = _ from h, show v' = _ from h']
          rfl
      | false =>
          obtain ⟨q, o, rfl, hq⟩ := h
          obtain ⟨q', o', rfl, hq'⟩ := h'
          exact ⟨_, _, hq, hq', rfl⟩
  | stringPtr owner p b =>
      obtain ⟨s, q, o, hs, rfl, hq⟩ := h
      obtain ⟨s', q', o', hs', rfl, hq'⟩ := h'
      rw [hs] at hs'
      rw [← Option.some.inj hs'] at hq'
      exact ⟨_, _, hq, hq', rfl⟩
  | closure q thisObj owner =>
      obtain ⟨p, cl, cl₁, rfl, hq, hp, hb⟩ := h
      obtain ⟨p', cl', cl₂, rfl, hq', hp', hb'⟩ := h'
      rw [hq] at hq'
      rw [← Option.some.inj hq'] at hb'
      exact ⟨_, _, hp, hp', hb.trans hb'.symm⟩
  | object a b =>
      obtain ⟨l, rfl, hl⟩ := h
      obtain ⟨l', rfl, hl'⟩ := h'
      exact hl.trans hl'.symm
  | socket s =>
      obtain ⟨s₁, rfl, h⟩ := h
      obtain ⟨s₂, rfl, h'⟩ := h'
      exact h.trans h'.symm
  | _ =>
      rw [show v = _ from h, show v' = _ from h']
      rfl

theorem means_setLocal {u : World} {c : Addr} {l : Local} {st : Storage}
    {v : Zval} : Means (w.setLocal c l) u st v ↔ Means w u st v := by
  cases st with
  | object a b =>
      unfold Means
      simp only [birthOf_setLocal]
  | string permanent b => cases permanent <;> exact Iff.rfl
  | _ => exact Iff.rfl

theorem means_setLocal_right {u : World} {c : Addr} {l : Local}
    {st : Storage} {v : Zval} :
    Means w (u.setLocal c l) st v ↔ Means w u st v := by
  cases st with
  | object a b =>
      unfold Means
      simp only [birthOf_setLocal]
  | string permanent b => cases permanent <;> exact Iff.rfl
  | _ => exact Iff.rfl

-- ========================================================= uncached reads

def ReadResult.value? : ReadResult → Option Zval
  | .cached v | .restored v => some v
  | _ => none

/-- Both reads yield a value, and the same one, or both end alike without
one. -/
def Agree (r r' : ReadResult × World) : Prop :=
  match ReadResult.value? r.1, ReadResult.value? r'.1 with
  | some v, some v' => SameValue r.2 r'.2 v v'
  | none, none => r.1 = r'.1
  | _, _ => False

/-- The member can be accessed in this way: for reading, or because it is a
ThreadSafe object. -/
def Allowed (access : Access) (st : Option Storage) : Prop :=
  access.readOnly = true ∨ (st.map storageIsPmmpthreadObj).getD false = true

theorem readShared_of_not_allowed {x : Conn} {k : Key} {access : Access}
    (h : ¬ Allowed access (x.o.props.hash.find k)) :
    w.readShared E x k access = (.indirectModification, w) := by
  obtain ⟨hr, hobj⟩ := not_or.mp h
  rw [Bool.not_eq_true] at hr hobj
  unfold readShared
  simp only [hr, hobj, Bool.not_false, Bool.and_self, if_true]

/-- What a read makes of a restored value. -/
def Restored.result : Restored → ReadResult
  | .value v => .restored v
  | .failed => .threw
  | .fault => .fault

theorem readShared_of_allowed {x : Conn} {k : Key} {access : Access}
    (h : Allowed access (x.o.props.hash.find k)) {st : Storage}
    (hst : x.o.props.hash.find k = some st) :
    w.readShared E x k access
      = (Restored.result (w.restoreZval E x.z.owner st).1,
        (w.restoreZval E x.z.owner st).2) := by
  have hgo : (!((x.o.props.hash.find k).map storageIsPmmpthreadObj).getD false
      && !access.readOnly) = false := by
    rcases h with h | h
    · rw [h, Bool.not_true, Bool.and_false]
    · rw [h, Bool.not_true, Bool.false_and]
  rw [hst] at hgo
  unfold readShared
  simp only [hst, hgo, Bool.false_eq_true, if_false]
  rcases w.restoreZval E x.z.owner st with ⟨r, u⟩
  cases r <;> rfl

theorem readShared_of_absent {x : Conn} {k : Key} {access : Access}
    (h : Allowed access (x.o.props.hash.find k))
    (hst : x.o.props.hash.find k = none) :
    w.readShared E x k access = (.absent, w) := by
  have hr : access.readOnly = true := by
    rcases h with h | h
    · exact h
    · rw [hst] at h
      cases h
  unfold readShared
  simp only [hst, hr, Bool.not_true, Bool.and_false, Bool.false_eq_true,
    if_false]

/-- Restorings that end alike and mean the same agree. -/
theorem agree_restored {r r' : Restored} {u u' : World} {st : Storage}
    (hfate : Restored.fate r = Restored.fate r')
    (h : ∀ v, r = .value v → Means w u st v)
    (h' : ∀ v, r' = .value v → Means w u' st v) :
    Agree (Restored.result r, u) (Restored.result r', u') := by
  cases r with
  | value v =>
      cases r' with
      | value v' => exact (h v rfl).sameValue (h' v' rfl)
      | failed => cases hfate
      | fault => cases hfate
  | failed =>
      cases r' with
      | failed => rfl
      | value v' => cases hfate
      | fault => cases hfate
  | fault =>
      cases r' with
      | fault => rfl
      | value v' => cases hfate
      | failed => cases hfate

section Uncached

variable (hs : Skel w) (c : Addr) (l : Local)

include hs

theorem skel_setLocal : Skel (w.setLocal c l) :=
  hs.same (sameSkel_setLocal w c l) rfl

theorem restored_setLocal (st : Storage) (t : ThreadId) :
    Restored.fate ((w.setLocal c l).restoreZval E t st).1
        = w.restoreFate E t st
      ∧ ∀ v, ((w.setLocal c l).restoreZval E t st).1 = .value v →
        Means w ((w.setLocal c l).restoreZval E t st).2 st v := by
  refine ⟨?_, fun v hv => means_setLocal.mp
    (restoreZval_means (skel_setLocal hs c l) (Prod.ext hv rfl))⟩
  rw [restoreZval_fate (skel_setLocal hs c l), restoreFate_setLocal]

/-- Uncached reads of one store agree, whatever the local tables. -/
theorem readShared_agree {l' : Local} {x y : Conn}
    (hp : y.o.props = x.o.props) (ht : y.z.owner = x.z.owner) (k : Key)
    (access : Access) :
    Agree ((w.setLocal c l).readShared E x k access)
      ((w.setLocal c l').readShared E y k access) := by
  by_cases hallow : Allowed access (x.o.props.hash.find k)
  · have hallow' := hallow
    rw [← hp] at hallow'
    cases hst : x.o.props.hash.find k with
    | none =>
        rw [readShared_of_absent hallow hst,
          readShared_of_absent hallow' (by rw [hp]; exact hst)]
        rfl
    | some st =>
        rw [readShared_of_allowed hallow hst,
          readShared_of_allowed hallow' (by rw [hp]; exact hst), ht]
        obtain ⟨hf, hm⟩ := restored_setLocal (E := E) hs c l st x.z.owner
        obtain ⟨hf', hm'⟩ :=
          restored_setLocal (E := E) hs c l' st x.z.owner
        exact agree_restored (hf.trans hf'.symm) hm hm'
  · have hallow' := hallow
    rw [← hp] at hallow'
    rw [readShared_of_not_allowed hallow, readShared_of_not_allowed hallow']
    rfl

end Uncached

-- =========================================================== cached reads

/-- What the local table has after the sync that a read begins with is what
the store has. -/
def CoherentAt (w : World) (x : Conn) : Prop :=
  ∀ k v, (w.readSync x).cached k = some v → Fits w x.o.props k v

/-- The value can still be restored on thread `t`: the object is the one
that was written and can be connected to, the closure can be copied. -/
def Intact (E : Engine) (w : World) (t : ThreadId) : Storage → Prop
  | .object a b => w.birthOf a = some b ∧ w.connectable E t a = true
  | st => w.restoreFate E t st = .value

theorem readLocked_of_none {c : Addr} {x : Conn} (hx : w.conn c = some x)
    {k : Key} (hn : (w.readSync x).cached k = none) (access : Access) :
    w.readLocked E c k access
      = (w.setLocal c (w.readSync x)).readShared E x k access := by
  unfold readLocked
  simp only [hx, hn]

theorem readLocked_of_some {c : Addr} {x : Conn} (hx : w.conn c = some x)
    {k : Key} {v : Zval} (hv : (w.readSync x).cached k = some v)
    (access : Access) :
    w.readLocked E c k access
      = (.cached v, w.setLocal c (w.readSync x)) := by
  unfold readLocked
  simp only [hx, hv]

/-- The connection without what it has cached under `k`. -/
def Conn.evict (x : Conn) (k : Key) : Conn :=
  ⟨{ x.z with loc := x.z.loc.del k }, x.s, x.o⟩

def evict (w : World) (c : Addr) (x : Conn) (k : Key) : World :=
  w.setLocal c (x.z.loc.del k)

theorem setLocal_setLocal (w : World) (c : Addr) (l l' : Local) :
    (w.setLocal c l).setLocal c l' = w.setLocal c l' := by
  unfold setLocal
  rw [Heap.modify_modify_self]

/-- A read without the cached value is a read of the shared table. -/
theorem readLocked_evict {c : Addr} {x : Conn} (hx : w.conn c = some x)
    (k : Key) (access : Access) :
    ∃ l, (w.evict c x k).readLocked E c k access
      = (w.setLocal c l).readShared E (x.evict k) k access := by
  have hconn : (w.evict c x k).conn c = some (x.evict k) := by
    obtain ⟨hz, hts, ho⟩ := conn_eq_some.mp hx
    refine conn_eq_some.mpr ⟨?_, hts, ho⟩
    show (w.mem.modify c _).get c = _
    rw [Heap.get_modify_self, hz]
    rfl
  have hnone : ((w.evict c x k).readSync (x.evict k)).cached k = none := by
    have hdel : (x.z.loc.del k).cached k = none := by
      rw [Local.cached_del, if_pos rfl]
    rw [cached_readSync, cached_syncLocal]
    unfold Conn.evict
    simp only [hdel, Option.filter_none, ite_self]
  refine ⟨(w.evict c x k).readSync (x.evict k), ?_⟩
  rw [readLocked_of_none hconn hnone]
  unfold evict
  rw [setLocal_setLocal]

/-- A value that the storage denotes means it, if the storage is intact. -/
theorem means_of_denotes (hown : OwnInv w) {s : TsAddr} {k : Key}
    {st : Storage} (he : w.entry s k = some st) {v : Zval}
    (hd : Denotes w st v) (hc : storageIsCacheable (some st) = true)
    (hi : Intact E w t st) : Means w w st v := by
  cases st with
  | object a b =>
      obtain ⟨l, hv, hl⟩ := hd
      exact ⟨l, hv, hl.trans hi.1.symm⟩
  | stringPtr owner p b =>
      obtain ⟨q, o, hv, hq⟩ := hd
      exact ⟨_, q, o, ((hown owner).strings he).1, hv, hq⟩
  | string permanent b =>
      cases permanent with
      | true => exact hd
      | false => exact hd
  | closure q thisObj owner => exact hd
  | socket s => exact hd
  | _ => cases hc

/-- A restored value is the one the storage denotes exactly if the storage
is intact. -/
theorem sameValue_iff_intact (hown : OwnInv w) {s : TsAddr} {k : Key}
    {st : Storage} (he : w.entry s k = some st) {v v' : Zval} {u : World}
    (hd : Denotes w st v) (hc : storageIsCacheable (some st) = true)
    (hfate : w.restoreFate E t st = .value) (hm : Means w u st v') (c : Addr)
    (l : Local) : SameValue (w.setLocal c l) u v v' ↔ Intact E w t st := by
  constructor
  · intro hsame
    cases st with
    | object a b =>
        obtain ⟨o, rfl, ho⟩ := hd
        obtain ⟨o', rfl, ho'⟩ := hm
        change (w.setLocal c l).birthOf o = u.birthOf o' at hsame
        rw [birthOf_setLocal, ho, ho'] at hsame
        refine ⟨hsame.symm, ?_⟩
        obtain ⟨o, ho, -⟩ := Option.map_eq_some_iff.mp hsame.symm
        obtain ⟨s, hts, -⟩ := Option.bind_eq_some_iff.mp ho
        change w.connectFate E t a = .value at hfate
        rw [connectFate_of_tsOf hts] at hfate
        by_contra hno
        rw [if_neg hno] at hfate
        cases hfate
    | _ => exact hfate
  · intro hi
    have hmw := means_of_denotes hown he hd hc hi
    exact (means_setLocal_right.mpr hmw).sameValue hm

theorem fate_of_intact {st : Storage} (h : Intact E w t st) :
    w.restoreFate E t st = .value := by
  cases st with
  | object a b =>
      obtain ⟨o, ho, -⟩ := Option.map_eq_some_iff.mp h.1
      obtain ⟨s, hts, -⟩ := Option.bind_eq_some_iff.mp ho
      change w.connectFate E t a = .value
      rw [connectFate_of_tsOf hts, if_pos h.2]
  | _ => exact h

/-- A cached value and a read without it agree exactly if the access is
allowed and the storage is intact. -/
theorem agree_cached_iff (hs : Skel w) (hown : OwnInv w) {c : Addr}
    {x : Conn} (hx : w.conn c = some x) {k : Key} {v : Zval} {st : Storage}
    (hst : x.o.props.hash.find k = some st)
    (hc : storageIsCacheable (some st) = true) (hd : Denotes w st v)
    (l l' : Local) (access : Access) :
    Agree (.cached v, w.setLocal c l)
        ((w.setLocal c l').readShared E (x.evict k) k access)
      ↔ Allowed access (some st) ∧ Intact E w x.z.owner st := by
  obtain ⟨-, -, ho⟩ := conn_eq_some.mp hx
  have he : w.entry x.s k = some st := (entry_eq ho k).trans hst
  by_cases hallow : Allowed access (some st)
  · have hallow' : Allowed access ((x.evict k).o.props.hash.find k) := by
      rw [show (x.evict k).o.props.hash.find k = some st from hst]
      exact hallow
    rw [readShared_of_allowed hallow' hst]
    obtain ⟨hf, hm⟩ := restored_setLocal (E := E) hs c l' st x.z.owner
    change Agree _ (Restored.result ((w.setLocal c l').restoreZval E
      x.z.owner st).1, ((w.setLocal c l').restoreZval E x.z.owner st).2) ↔ _
    rcases hr : (w.setLocal c l').restoreZval E x.z.owner st with ⟨r, u⟩
    rw [hr] at hf hm
    have hnot : Restored.fate r ≠ .value →
        ¬ (Allowed access (some st) ∧ Intact E w x.z.owner st) := by
      intro hne hi
      exact hne (hf.trans (fate_of_intact hi.2))
    cases r with
    | value v' =>
        have hiff := sameValue_iff_intact hown he hd hc hf.symm (hm v' rfl) c l
        exact hiff.trans ⟨fun hi => ⟨hallow, hi⟩, fun hi => hi.2⟩
    | failed => exact ⟨False.elim, hnot (by decide)⟩
    | fault => exact ⟨False.elim, hnot (by decide)⟩
  · have hallow' : ¬ Allowed access ((x.evict k).o.props.hash.find k) := by
      rw [show (x.evict k).o.props.hash.find k = some st from hst]
      exact hallow
    rw [readShared_of_not_allowed hallow']
    exact ⟨False.elim, fun hi => hallow hi.1⟩

/-- In every reachable world and for every connection whose local table is
coherent, the outcome of a read is the same with and without the cached
value exactly if nothing is cached, or the access is allowed and the
storage is intact; and a write access to a member that is not a ThreadSafe
object is rejected exactly if nothing is cached. -/
theorem cached_reads_agree_iff (E : Engine) (w : World)
    (hw : Reachable E w) (c : Addr) (x : Conn) (hx : w.conn c = some x)
    (hcoh : CoherentAt w x) (k : Key) (access : Access) :
    (Agree (w.readLocked E c k access)
        ((w.evict c x k).readLocked E c k access)
      ↔ (w.readSync x).cached k = none
        ∨ ∃ st, x.o.props.hash.find k = some st ∧ Allowed access (some st)
          ∧ Intact E w x.z.owner st)
    ∧ (¬ Allowed access (x.o.props.hash.find k) →
      ((w.readLocked E c k access).1 = .indirectModification
        ↔ (w.readSync x).cached k = none)) := by
  have hs := hw.skel
  obtain ⟨l, hevict⟩ := readLocked_evict (E := E) hx k access
  rw [hevict]
  cases hv : (w.readSync x).cached k with
  | none =>
      rw [readLocked_of_none hx hv]
      refine ⟨⟨fun _ => Or.inl rfl, fun _ =>
        readShared_agree (y := x.evict k) hs c _ rfl rfl k access⟩,
        fun hno => ?_⟩
      rw [readShared_of_not_allowed hno]
      exact ⟨fun _ => rfl, fun _ => rfl⟩
  | some v =>
      obtain ⟨st, hst, hc, hd⟩ := hcoh k v hv
      rw [readLocked_of_some hx hv, agree_cached_iff hs hw.own hx hst hc hd]
      refine ⟨⟨fun h => Or.inr ⟨st, hst, h⟩, ?_⟩, fun _ => ?_⟩
      · rintro (hno | ⟨st', hst', h⟩)
        · cases hno
        · rw [hst] at hst'
          rw [Option.some.inj hst']
          exact h
      · constructor
        · intro hno
          cases hno
        · intro hno
          cases hno

/-- Thread 1 stores a string under key 0, and thread 2 reads it twice
through its own connection 2: the first read makes the local table, the
second one syncs it. -/
def readString : List Act :=
  [.alloc 1 [] .threaded [], .ctor 1, .newString 1 [97],
    .write 1 (some (.long 0)) (.string 1), .finish 1, .connect 2 1,
    .read 2 (.long 0) .r, .finish 2, .read 2 (.long 0) .r, .finish 2]

/-- Thread 2 has the string in its local table, which is coherent. -/
theorem readString_world :
    ∃ w x, Reachable (demoEngine .bump) w ∧ w.conn 2 = some x
      ∧ CoherentAt w x ∧ (w.readSync x).cached (.long 0) = some (.string 3)
      ∧ x.o.props.hash.find (.long 0) = some (.stringPtr 1 1 [97])
      ∧ (w.strings.get 1).isSome = true := by
  have hview : (run (demoEngine .bump) init readString).map
      (fun w => ((w.ready 2).isSome, (w.ready 2).bind fun x =>
          (w.readSync x).cached (.long 0)))
      = some (true, some (.string 3)) := by
    decide
  have hview' : (run (demoEngine .bump) init readString).map
      (fun w => ((w.ready 2).bind fun x => x.o.props.hash.find (.long 0),
          (w.strings.get 1).isSome))
      = some (some (.stringPtr 1 1 [97]), true) := by
    decide
  obtain ⟨w, hw, hv⟩ := Option.map_eq_some_iff.mp hview
  rw [hw] at hview'
  obtain ⟨hready, hcached⟩ := Prod.mk.inj hv
  obtain ⟨hstored, hstring⟩ := Prod.mk.inj (Option.some.inj hview')
  obtain ⟨x, hx⟩ := Option.isSome_iff_exists.mp hready
  rw [hx] at hcached hstored
  obtain ⟨hconn, hidle⟩ := ready_eq_some.mp hx
  have hro : AllSteps (demoEngine .bump) (ReadsOnly 2) init readString := by
    refine .of_forall fun act hact w w' => ?_
    unfold readString at hact
    simp only [List.mem_cons, List.not_mem_nil, or_false] at hact
    rcases hact with h | h | h | h | h | h | h | h | h | h
      <;> rw [h] <;> simp [ReadsOnly, mutates]
  obtain ⟨hs, haddr, hown, hcoh⟩ :=
    run_coherent Allocator.bump_noReuse hw hro
  refine ⟨w, x, ⟨_, hw⟩, hconn, fun k v hkv => ?_, hcached, hstored, hstring⟩
  rw [cached_readSync] at hkv
  refine hcoh.sync hs haddr hown hconn ?_ hkv
  rw [hidle]
  exact List.not_mem_nil

theorem cached_reads_agree_iff_readString :
    ∃ w x, Reachable (demoEngine .bump) w ∧ w.conn 2 = some x
      ∧ CoherentAt w x ∧ (w.readSync x).cached (.long 0) = some (.string 3)
      ∧ Agree (w.readLocked (demoEngine .bump) 2 (.long 0) .r)
        ((w.evict 2 x (.long 0)).readLocked (demoEngine .bump) 2 (.long 0)
          .r) := by
  obtain ⟨w, x, hw, hx, hcoh, hcached, hstored, hstring⟩ := readString_world
  refine ⟨w, x, hw, hx, hcoh, hcached, ?_⟩
  refine (cached_reads_agree_iff (demoEngine .bump) w hw 2 x hx hcoh
    (.long 0) .r).1.mpr (Or.inr ⟨_, hstored, Or.inl rfl, ?_⟩)
  change (if (w.strings.get 1).isSome then Fate.value else .fault) = .value
  rw [hstring]
  rfl

/-- The string is handed out for writing because it is cached. -/
theorem cached_reads_disagree :
    ∃ w x, Reachable (demoEngine .bump) w ∧ w.conn 2 = some x
      ∧ CoherentAt w x
      ∧ (w.readLocked (demoEngine .bump) 2 (.long 0) .w).1
        = .cached (.string 3)
      ∧ ((w.evict 2 x (.long 0)).readLocked (demoEngine .bump) 2 (.long 0)
          .w).1 = .indirectModification := by
  obtain ⟨w, x, hw, hx, hcoh, hcached, hstored, -⟩ := readString_world
  obtain ⟨l, hevict⟩ :=
    readLocked_evict (E := demoEngine .bump) hx (.long 0) .w
  refine ⟨w, x, hw, hx, hcoh, ?_, ?_⟩
  · rw [readLocked_of_some hx hcached]
  · rw [hevict, readShared_of_not_allowed]
    change ¬ Allowed .w (x.o.props.hash.find (.long 0))
    rw [hstored]
    rintro (h | h)
    · cases h
    · cases h

end PmmpThread.Model.World
