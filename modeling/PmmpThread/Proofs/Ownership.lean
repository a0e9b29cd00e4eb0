/-
What a thread holds. Every value in a local table of a thread, in its
pending frame and in its gc queues is one the thread holds: a live
object of its own, a live string of its own heap, an existing closure.
And every string pointer that the thread has stored in a shared table
is kept alive by the thread's own connection to that object.

# Shape

The invariant is stated for one thread (`OwnOf`). A step is made by one
thread, and what it leaves alone of the others is said once (`By`); so
each step has to be looked at for the acting thread only. There, almost
everything is a change of one local table and one store
(`OwnOf.change`).

# Objects about to be freed

The tables of objects in a `freeing` frame may name objects that are
gone already. Nothing reads them any more, and the invariant does not
speak of them.
-/
import PmmpThread.Proofs.Views

namespace PmmpThread.Model.World

open Zend

variable {E : Engine} {a t : ThreadId} {w w' : World}

/-- Thread `t` holds the value. -/
def Held (w : World) (t : ThreadId) : Zval → Prop
  | .object a => ∃ z, w.mem.get a = some z ∧ z.owner = t
  | .string p => ∃ b, w.strings.get p = some ⟨t, b⟩
  | .closure p => ∃ cl, w.closures[p]? = some cl
  | _ => True

/-- A value that is held and not about to be freed. -/
def Safe (w : World) (t : ThreadId) (v : Zval) : Prop :=
  Held w t v ∧ ∀ l, v = .object l → l ∉ (w.frame t).batch

/-- The values a frame keeps are held. -/
def FrameHeld (w : World) (t : ThreadId) : Frame → Prop
  | .fill _ _ v => Held w t v
  | .allocated _ _ defaults => ∀ d ∈ defaults.flatten, Held w t d.2
  | _ => True

/-- The connection `c` with local table `l` keeps the string `p` for the
key `k`, or its thread is just about to put it there. -/
structure Backs (f : Frame) (c : Addr) (l : Local) (k : Key) (p : StrPtr) :
    Prop where
  kept : l.cached k = some (.string p) ∨ f = .fill c k (.string p)
  fill : ∀ v, f = .fill c k v → v = .string p
  drop : f ≠ .drop c k

/-- The invariant of one thread. -/
structure OwnOf (w : World) (t : ThreadId) : Prop where
  cached : ∀ {c z k v}, w.mem.get c = some z → z.owner = t →
    c ∉ (w.frame t).batch → z.loc.cached k = some v → Safe w t v
  gc : ∀ {c z l}, w.mem.get c = some z → z.owner = t →
    c ∉ (w.frame t).batch → l ∈ z.gc → Safe w t (.object l)
  frame : FrameHeld w t (w.frame t)
  globals : ∀ {g}, w.threadSharedGlobals t = some g → Held w t (.object g)
  strings : ∀ {s k p b}, w.entry s k = some (.stringPtr t p b) →
    w.strings.get p = some ⟨t, b⟩ ∧ ∃ c z, w.mem.get c = some z
      ∧ z.owner = t ∧ z.tsObj = some s ∧ Backs (w.frame t) c z.loc k p

theorem ownOf_init (t : ThreadId) : OwnOf init t where
  cached h := by cases h
  gc h := by cases h
  frame := trivial
  globals h := by cases h
  strings h := by cases h

-- ============================================ what one thread can change

/-- Closures stay, only their liveness may change. -/
def ClosuresStay (w w' : World) : Prop :=
  ∀ (p : Nat) (cl : Closure), w.closures[p]? = some cl →
    ∃ live, w'.closures[p]? = some { cl with live }

/-- Only thread `a` acted. -/
structure By (a : ThreadId) (w w' : World) : Prop where
  back : ∀ {c z}, w'.mem.get c = some z → z.owner ≠ a →
    w.mem.get c = some z
  mem : ∀ {c z}, w.mem.get c = some z → z.owner ≠ a →
    w'.mem.get c = some z
  frame : ∀ {t}, t ≠ a → w'.frame t = w.frame t
  globals : ∀ {t}, t ≠ a →
    w'.threadSharedGlobals t = w.threadSharedGlobals t
  str : ∀ {p s}, w.strings.get p = some s → w'.strings.get p = some s
  closures : ClosuresStay w w'
  strings : ∀ {s k t p b}, t ≠ a →
    w'.entry s k = some (.stringPtr t p b) →
    w.entry s k = some (.stringPtr t p b)

theorem ClosuresStay.refl (w : World) : ClosuresStay w w :=
  fun _ cl h => ⟨cl.live, h⟩

theorem By.refl (a : ThreadId) (w : World) : By a w w where
  back h _ := h
  mem h _ := h
  frame _ := rfl
  globals _ := rfl
  str h := h
  closures := .refl w
  strings _ h := h

theorem By.trans {u : World} (h : By a w u) (h' : By a u w') :
    By a w w' where
  back hz ho := h.back (h'.back hz ho) ho
  mem hz ho := h'.mem (h.mem hz ho) ho
  frame ht := (h'.frame ht).trans (h.frame ht)
  globals ht := (h'.globals ht).trans (h.globals ht)
  str hp := h'.str (h.str hp)
  closures p cl hcl := by
    obtain ⟨live, hl⟩ := h.closures p cl hcl
    obtain ⟨live', hl'⟩ := h'.closures p _ hl
    exact ⟨live', hl'⟩
  strings ht he := h.strings ht (h'.strings ht he)

theorem Held.by (h : By a w w') (ht : t ≠ a) {v : Zval}
    (hv : Held w t v) : Held w' t v := by
  cases v with
  | object l =>
      obtain ⟨z, hz, ho⟩ := hv
      exact ⟨z, h.mem hz (ho ▸ ht), ho⟩
  | string p =>
      obtain ⟨b, hb⟩ := hv
      exact ⟨b, h.str hb⟩
  | closure p =>
      obtain ⟨cl, hcl⟩ := hv
      obtain ⟨live, hl⟩ := h.closures p cl hcl
      exact ⟨_, hl⟩
  | _ => trivial

theorem FrameHeld.mono {f : Frame}
    (hheld : ∀ {v}, Held w t v → Held w' t v) (h : FrameHeld w t f) :
    FrameHeld w' t f := by
  cases f with
  | fill c k v => exact hheld h
  | allocated a scope defaults => exact fun d hd => hheld (h d hd)
  | _ => trivial

/-- A step of another thread keeps the invariant. -/
theorem OwnOf.by (h : OwnOf w t) (hby : By a w w') (ht : t ≠ a) :
    OwnOf w' t where
  cached hz ho hb hv := by
    rw [hby.frame ht] at hb
    obtain ⟨hh, hs⟩ := h.cached (hby.back hz (ho ▸ ht)) ho hb hv
    exact ⟨hh.by hby ht, by rw [hby.frame ht]; exact hs⟩
  gc hz ho hb hl := by
    rw [hby.frame ht] at hb
    obtain ⟨hh, hs⟩ := h.gc (hby.back hz (ho ▸ ht)) ho hb hl
    exact ⟨hh.by hby ht, by rw [hby.frame ht]; exact hs⟩
  frame := by
    rw [hby.frame ht]
    exact h.frame.mono fun hv => hv.by hby ht
  globals hg := by
    rw [hby.globals ht] at hg
    exact (h.globals hg).by hby ht
  strings he := by
    obtain ⟨hp, c, z, hz, ho, hts, hk⟩ := h.strings (hby.strings ht he)
    refine ⟨hby.str hp, c, z, hby.mem hz (ho ▸ ht), ho, hts, ?_⟩
    rw [hby.frame ht]
    exact hk

-- ============================================================ growing

theorem closuresStay_of_append (h : w.closures <+: w'.closures) :
    ClosuresStay w w' := by
  intro p cl hcl
  obtain ⟨hp, heq⟩ := List.getElem?_eq_some_iff.mp hcl
  exact ⟨cl.live, by rw [List.prefix_iff_getElem?.mp h p hp, heq]⟩

theorem Held.extends (h : Extends w w') {v : Zval} (hv : Held w t v) :
    Held w' t v := by
  cases v with
  | object l =>
      obtain ⟨z, hz, ho⟩ := hv
      obtain ⟨l', hl'⟩ := h.mem hz
      exact ⟨_, hl', ho⟩
  | string p =>
      obtain ⟨b, hb⟩ := hv
      exact ⟨b, h.strings hb⟩
  | closure p =>
      obtain ⟨cl, hcl⟩ := hv
      obtain ⟨live, hl⟩ := closuresStay_of_append h.closures p cl hcl
      exact ⟨_, hl⟩
  | _ => trivial

theorem Grow.by (h : Grow E a w w') : By a w w' where
  back hz ho := by
    rcases h.new hz with hz | ⟨-, hn, -⟩
    · exact hz
    · exact absurd hn ho
  mem hz _ := h.mem hz
  frame _ := by rw [h.extends.frame]
  globals _ := by rw [h.extends.globals]
  str hp := h.extends.strings hp
  closures := closuresStay_of_append h.extends.closures
  strings _ he := by rw [← h.entry]; exact he

/-- Additions keep the invariant of every thread. -/
theorem OwnOf.grow (h : OwnOf w t) (hg : Grow E a w w') : OwnOf w' t where
  cached hz ho hb hv := by
    rw [hg.extends.frame] at hb
    rcases hg.new hz with hz | ⟨-, hn⟩
    · obtain ⟨hh, hs⟩ := h.cached hz ho hb hv
      exact ⟨hh.extends hg.extends, by rw [hg.extends.frame]; exact hs⟩
    · rw [hn.cached] at hv
      cases hv
  gc hz ho hb hl := by
    rw [hg.extends.frame] at hb
    rcases hg.new hz with hz | ⟨-, hn⟩
    · obtain ⟨hh, hs⟩ := h.gc hz ho hb hl
      exact ⟨hh.extends hg.extends, by rw [hg.extends.frame]; exact hs⟩
    · rw [hn.2.1] at hl
      cases hl
  frame := by
    rw [hg.extends.frame]
    exact h.frame.mono fun hv => hv.extends hg.extends
  globals hgl := by
    rw [hg.extends.globals] at hgl
    exact (h.globals hgl).extends hg.extends
  strings he := by
    rw [hg.entry] at he
    obtain ⟨hp, c, z, hz, ho, hts, hk⟩ := h.strings he
    refine ⟨hg.extends.strings hp, c, z, hg.mem hz, ho, hts, ?_⟩
    rw [hg.extends.frame]
    exact hk

-- ================================================ one table changes

/-- A frame that concerns no connection but `c`, and frees nothing. -/
def Within (c : Addr) : Frame → Prop
  | .fill c' _ _ | .drop c' _ => c' = c
  | .freeing _ => False
  | _ => True

theorem Within.batch {c : Addr} {f : Frame} (h : Within c f) :
    f.batch = [] := by
  cases f with
  | freeing batch => cases h
  | _ => rfl

/-- `c` is the only connection of thread `t` to `s`. -/
def Only (w : World) (t : ThreadId) (s : TsAddr) (c : Addr) : Prop :=
  ∀ c' z', w.mem.get c' = some z' → z'.owner = t → z'.tsObj = some s →
    c' = c

theorem Skel.only (hs : Skel w) {c : Addr} {z : ZObj} {s : TsAddr}
    (hz : w.mem.get c = some z) (ho : z.owner = t)
    (hts : z.tsObj = some s) : Only w t s c := by
  intro c' z' hz' ho' hts'
  have h1 := hs.resolveAll hz hts
  have h2 := hs.resolveAll hz' hts'
  rw [ho] at h1
  rw [ho', h1] at h2
  exact (Option.some.inj h2).symm

/-- `w'` differs from `w` in the local table `l` of `c`, in stores and
in frames. -/
structure Edit (w w' : World) (c : Addr) (z : ZObj) (l : Local) : Prop where
  here : w.mem.get c = some z
  mem : ∀ c', w'.mem.get c'
    = if c' = c then some { z with loc := l } else w.mem.get c'
  strings : w'.strings = w.strings
  closures : w'.closures = w.closures
  globals : w'.threadSharedGlobals = w.threadSharedGlobals

theorem edit_modify {c : Addr} {z : ZObj} (hz : w.mem.get c = some z)
    (f : ZObj → Local) :
    Edit w { w with mem := w.mem.modify c fun z => { z with loc := f z } }
      c z (f z) where
  here := hz
  mem c' := by
    show (w.mem.modify c _).get c' = _
    rw [Heap.get_modify]
    by_cases hc : c' = c
    · rw [if_pos hc, if_pos hc, hc, hz]
      rfl
    · rw [if_neg hc, if_neg hc]
  strings := rfl
  closures := rfl
  globals := rfl

theorem edit_setLocal {c : Addr} {z : ZObj} (hz : w.mem.get c = some z)
    (l : Local) : Edit w (w.setLocal c l) c z l :=
  edit_modify hz fun _ => l

theorem edit_commit {c : Addr} {x : Conn} (hx : w.conn c = some x)
    (r : Local × Store Storage) : Edit w (w.commit c x.s r) c x.z r.1 :=
  { edit_setLocal (conn_eq_some.mp hx).1 r.1 with }

theorem edit_self {c : Addr} {z : ZObj} (hz : w.mem.get c = some z) :
    Edit w w c z z.loc where
  here := hz
  mem c' := by
    by_cases hc : c' = c
    · rw [if_pos hc, hc, hz]
    · rw [if_neg hc]
  strings := rfl
  closures := rfl
  globals := rfl

theorem Edit.setFrame {c : Addr} {z : ZObj} {l : Local}
    (h : Edit w w' c z l) (f : Frame) : Edit w (w'.setFrame t f) c z l :=
  { h with }

theorem Edit.held {c : Addr} {z : ZObj} {l : Local} (h : Edit w w' c z l)
    {v : Zval} (hv : Held w t v) : Held w' t v := by
  cases v with
  | object o =>
      obtain ⟨zo, hzo, ho⟩ := hv
      by_cases hoc : o = c
      · have hzz : zo = z := by
          rw [hoc, h.here] at hzo
          exact (Option.some.inj hzo).symm
        refine ⟨{ z with loc := l }, ?_, hzz ▸ ho⟩
        rw [h.mem, if_pos hoc]
      · exact ⟨zo, by rw [h.mem, if_neg hoc]; exact hzo, ho⟩
  | string p =>
      obtain ⟨b, hb⟩ := hv
      exact ⟨b, by rw [h.strings]; exact hb⟩
  | closure p =>
      obtain ⟨cl, hcl⟩ := hv
      exact ⟨cl, by rw [h.closures]; exact hcl⟩
  | _ => trivial

theorem Edit.by {c : Addr} {z : ZObj} {l : Local} (h : Edit w w' c z l)
    (ho : z.owner = a) (hframe : ∀ {t}, t ≠ a → w'.frame t = w.frame t)
    (hent : ∀ {s k t p b}, t ≠ a →
      w'.entry s k = some (.stringPtr t p b) →
      w.entry s k = some (.stringPtr t p b)) : By a w w' where
  back {c' z'} hz' ho' := by
    rw [h.mem] at hz'
    split at hz'
    · rw [← Option.some.inj hz'] at ho'
      exact absurd ho ho'
    · exact hz'
  mem {c' z'} hz' ho' := by
    rw [h.mem, if_neg]
    · exact hz'
    · intro hc
      rw [hc, h.here] at hz'
      exact ho' (Option.some.inj hz' ▸ ho)
  frame := hframe
  globals _ := by rw [h.globals]
  str hp := by rw [h.strings]; exact hp
  closures p cl hcl := ⟨cl.live, by rw [h.closures]; exact hcl⟩
  strings := hent

/-- The acting thread after a change of the local table of its
connection `c` to `s`: what is cached must be held, and every string
pointer of the thread in the store of `s` must be kept by `c`. -/
theorem OwnOf.change (h : OwnOf w t) {c : Addr} {z : ZObj} {l : Local}
    {s : TsAddr} (he : Edit w w' c z l) (ho : z.owner = t)
    (hts : z.tsObj = some s) (hin : Within c (w.frame t))
    (hin' : Within c (w'.frame t))
    (hent : ∀ s' k, s' ≠ s → w'.entry s' k = w.entry s' k)
    (hcached : ∀ k v, l.cached k = some v → Held w t v)
    (hframe : FrameHeld w t (w'.frame t))
    (hself : ∀ k p b, w'.entry s k = some (.stringPtr t p b) →
      w.strings.get p = some ⟨t, b⟩ ∧ Backs (w'.frame t) c l k p) :
    OwnOf w' t where
  cached {c' z' k v} hz' ho' _ hv := by
    have hheld : Held w t v := by
      rw [he.mem] at hz'
      split at hz'
      · rw [← Option.some.inj hz'] at hv
        exact hcached k v hv
      · exact (h.cached hz' ho' (by rw [hin.batch]; exact List.not_mem_nil)
          hv).1
    exact ⟨he.held hheld, by rw [hin'.batch]; exact fun _ _ =>
      List.not_mem_nil⟩
  gc {c' z' l'} hz' ho' _ hl := by
    have hheld : Held w t (.object l') := by
      rw [he.mem] at hz'
      split at hz'
      · rw [← Option.some.inj hz'] at hl
        exact (h.gc he.here ho (by rw [hin.batch]; exact List.not_mem_nil)
          hl).1
      · exact (h.gc hz' ho' (by rw [hin.batch]; exact List.not_mem_nil)
          hl).1
    exact ⟨he.held hheld, by rw [hin'.batch]; exact fun _ _ =>
      List.not_mem_nil⟩
  frame := hframe.mono he.held
  globals hg := by
    rw [he.globals] at hg
    exact he.held (h.globals hg)
  strings {s' k p b} hk := by
    by_cases hs : s' = s
    · rw [hs] at hk ⊢
      obtain ⟨hp, hb⟩ := hself k p b hk
      refine ⟨by rw [he.strings]; exact hp, c, { z with loc := l }, ?_, ho,
        hts, hb⟩
      rw [he.mem, if_pos rfl]
    · rw [hent s' k hs] at hk
      obtain ⟨hp, c', z', hz', ho', hts', hb⟩ := h.strings hk
      have hne : c' ≠ c := by
        intro hc
        rw [hc, he.here] at hz'
        rw [← Option.some.inj hz', hts] at hts'
        exact hs (Option.some.inj hts').symm
      refine ⟨by rw [he.strings]; exact hp, c', z', ?_, ho', hts', ?_⟩
      · rw [he.mem, if_neg hne]
        exact hz'
      -- neither frame is about `c'`, so the table of `c'` has the string
      · have hother : ∀ {f : Frame}, Within c f →
            (∀ k v, f ≠ .fill c' k v) ∧ ∀ k, f ≠ .drop c' k := by
          intro f hf
          refine ⟨fun k v h => ?_, fun k h => ?_⟩
          · rw [h] at hf
            exact hne hf
          · rw [h] at hf
            exact hne hf
        refine ⟨Or.inl (hb.kept.resolve_right ((hother hin).1 k _)),
          fun v hv => absurd hv ((hother hin').1 k v), (hother hin').2 k⟩

/-- The one connection of the thread to `s` is the one that keeps its
strings there. -/
theorem OwnOf.backs (h : OwnOf w t) {c : Addr} {z : ZObj} {s : TsAddr}
    (hz : w.mem.get c = some z) (honly : Only w t s c) {k : Key}
    {p : StrPtr} {b : Bytes} (he : w.entry s k = some (.stringPtr t p b)) :
    w.strings.get p = some ⟨t, b⟩ ∧ Backs (w.frame t) c z.loc k p := by
  obtain ⟨hp, c', z', hz', ho', hts', hb⟩ := h.strings he
  have hc := honly c' z' hz' ho' hts'
  rw [hc, hz] at hz'
  rw [hc, ← Option.some.inj hz'] at hb
  exact ⟨hp, hb⟩

-- ====================================================== restored values

theorem objectConnect_held (hs : Skel w) {o l : Addr} {u : World}
    (h : w.objectConnect E t o = (.ok l, u)) : Held u t (.object l) := by
  cases hf : w.findConnection t o with
  | some r =>
      have hr : w.objectConnect E t o = (r, w) := by
        unfold objectConnect
        rw [hf]
      rw [h] at hr
      obtain ⟨h1, h2⟩ := Prod.mk.inj hr
      rw [h2]
      rw [← h1] at hf
      unfold findConnection at hf
      split at hf
      · split at hf
        · cases hf
        · rename_i z hz
          split at hf
          case isTrue ho =>
            injection hf with hf
            injection hf with hf
            exact ⟨z, hf ▸ hz, ho⟩
          case isFalse =>
            obtain ⟨l', hl', heq⟩ := Option.map_eq_some_iff.mp hf
            obtain ⟨s, -, hres⟩ := Option.bind_eq_some_iff.mp hl'
            injection heq with heq
            obtain ⟨zl, hzl, ho, -⟩ := hs.resolveLive hres
            exact ⟨zl, heq ▸ hzl, ho⟩
      · cases hf
  | none =>
      obtain ⟨-, z, hz, -, -⟩ := findConnection_none hf
      rw [objectConnect_create (hs.connecting t) hf hz] at h
      split at h
      case h_1 s _ =>
        split at h
        · obtain ⟨h1, h2⟩ := Prod.mk.inj h
          injection h1 with h1
          rw [← h1, ← h2]
          exact ⟨_, Heap.get_place_self _ _ _, rfl⟩
        · cases h
      case h_2 => cases h

theorem copyClosure_held {q : ClosurePtr} {v : Zval} {u : World}
    (h : w.copyClosure E t q = (.value v, u)) : Held u t v := by
  have hbound : ∀ {w : World} {cl : Closure} {o : Option Addr},
      w.copyBound E t cl o = (.value v, u) → Held u t v := by
    intro w cl o h
    have hnew : ∀ {w : World} {cl : Closure},
        ((Restored.value (.closure (w.newClosure cl).1),
          (w.newClosure cl).2) : Restored × World) = (.value v, u) →
        Held u t v := by
      intro w cl h
      obtain ⟨h1, h2⟩ := Prod.mk.inj h
      injection h1 with h1
      rw [← h1, ← h2]
      exact ⟨cl, List.getElem?_concat_length⟩
    unfold copyBound at h
    split at h
    · split at h
      · exact hnew h
      · cases h
    · split at h
      · exact hnew h
      · cases h
  unfold copyClosure at h
  split at h
  · cases h
  · split at h
    · split at h
      · exact hbound h
      · split at h
        · exact hbound h
        · cases h
        · exact hbound h
        · cases h
    · cases h

/-- A value that thread `t` restored is held by it. -/
theorem restoreZval_held (hs : Skel w) {st : Storage} {v : Zval} {u : World}
    (hst : ∀ p b, st = .stringPtr t p b → ∃ b', w.strings.get p
      = some ⟨t, b'⟩)
    (h : w.restoreZval E t st = (.value v, u)) : Held u t v := by
  cases st with
  | string permanent b =>
      cases permanent with
      | true =>
          obtain ⟨h1, -⟩ := Prod.mk.inj h
          injection h1 with h1
          rw [← h1]
          trivial
      | false =>
          obtain ⟨h1, h2⟩ := Prod.mk.inj h
          injection h1 with h1
          rw [← h1, ← h2]
          exact ⟨b, Heap.get_place_self _ _ _⟩
  | stringPtr owner p b =>
      change w.restoreStringPtr E t owner p = _ at h
      unfold restoreStringPtr at h
      split at h
      · cases h
      · split at h
        case isTrue ho =>
          obtain ⟨h1, h2⟩ := Prod.mk.inj h
          injection h1 with h1
          rw [← h1, ← h2]
          exact hst p b (ho ▸ rfl)
        case isFalse =>
          obtain ⟨h1, h2⟩ := Prod.mk.inj h
          injection h1 with h1
          rw [← h1, ← h2]
          exact ⟨_, Heap.get_place_self _ _ _⟩
  | closure p o owner => exact copyClosure_held h
  | object o b =>
      simp only [restoreZval] at h
      split at h
      case h_1 l u' hc =>
        obtain ⟨h1, h2⟩ := Prod.mk.inj h
        injection h1 with h1
        rw [← h1, ← h2]
        exact objectConnect_held hs hc
      case h_2 => cases h
      case h_3 => cases h
      case h_4 => cases h
  | enumCase cls name =>
      rw [restoreZval_enumCase h]
      trivial
  | _ =>
      obtain ⟨h1, -⟩ := Prod.mk.inj h
      injection h1 with h1
      rw [← h1]
      trivial

theorem restored_held (hs : Skel w) {st : Storage} {r : Restored} {u : World}
    (hst : ∀ p b, st = .stringPtr t p b → ∃ b', w.strings.get p
      = some ⟨t, b'⟩)
    (h : w.restoreZval E t st = (r, u)) : Held u t r.zval := by
  cases r with
  | value v => exact restoreZval_held hs hst h
  | failed => trivial
  | fault => trivial

theorem restoreAll_held (es : List (Key × Storage)) :
    ∀ {w : World}, Skel w → (∀ e ∈ es, ∀ p b, e.2 = .stringPtr t p b →
        ∃ b', w.strings.get p = some ⟨t, b'⟩) →
      ∀ {r}, w.restoreAll E t es = some r →
      ∀ e ∈ r.1, Held r.2 t e.2 := by
  induction es with
  | nil =>
      intro w _ _ r h e he
      injection h with h
      rw [← h] at he
      cases he
  | cons e₀ es ih =>
      intro w hs hst r h e he
      have hg := restoreZval_grow (E := E) (hs.connecting t) e₀.2
      unfold restoreAll at h
      split at h
      case h_1 => cases h
      case h_2 v u _ hr =>
        rw [hr] at hg
        obtain ⟨rs, hrs, rfl⟩ := Option.map_eq_some_iff.mp h
        have hsu := hs.grow hg
        have hgrow := restoreAll_grow (E := E) es (hsu.connecting t) hrs
        rcases List.mem_cons.mp he with rfl | he
        · exact (restored_held hs (hst e₀ List.mem_cons_self) hr).extends
            hgrow.extends
        · refine ih hsu (fun e he p b hp => ?_) hrs e he
          obtain ⟨b', hb'⟩ := hst e (List.mem_cons_of_mem _ he) p b hp
          exact ⟨b', hg.extends.strings hb'⟩

/-- String pointers of the thread in a store name strings of its own. -/
theorem OwnOf.owned (h : OwnOf w t) {s : TsAddr} {k : Key} {st : Storage}
    (he : w.entry s k = some st) (p : StrPtr) (b : Bytes)
    (hst : st = .stringPtr t p b) : ∃ b', w.strings.get p = some ⟨t, b'⟩ :=
  ⟨b, (h.strings (hst ▸ he)).1⟩

-- =============================================================== sync

theorem keepCached_indirect (w : World) (t : ThreadId) (st : Storage) :
    w.keepCached t st .indirect = false := by
  cases st <;> rfl

theorem cached_syncLocal (w : World) (t : ThreadId) (s : Store Storage)
    (l : Local) (k : Key) :
    (w.syncLocal t s l).cached k
      = if l.modcount = s.modcount then l.cached k
        else (l.cached k).filter fun v =>
          ((s.hash.find k).map fun st => w.keepCached t st v).getD false :=
  Local.cached_sync (w.keepCached_indirect t) s.hash s.modcount l k

/-- What is cached after a sync was cached before. -/
theorem cached_of_syncLocal {s : Store Storage} {l : Local} {k : Key}
    {v : Zval} (h : (w.syncLocal t s l).cached k = some v) :
    l.cached k = some v := by
  rw [cached_syncLocal] at h
  split at h
  · exact h
  · exact (Option.filter_eq_some_iff.mp h).1

/-- A value that matches its storage stays cached. -/
theorem cached_syncLocal_of_keep {s : Store Storage} {l : Local} {k : Key}
    {v : Zval} {st : Storage} (hv : l.cached k = some v)
    (hst : s.hash.find k = some st) (hk : w.keepCached t st v = true) :
    (w.syncLocal t s l).cached k = some v := by
  rw [cached_syncLocal, hv, hst]
  split
  · rfl
  · rw [Option.filter_some, if_pos]
    exact hk

theorem keepCached_own (w : World) (t : ThreadId) (p : StrPtr) (b : Bytes) :
    w.keepCached t (.stringPtr t p b) (.string p) = true := by
  unfold keepCached
  simp only [BEq.rfl, Bool.and_self]

/-- A new local table for `c` that caches nothing new and keeps the
thread's strings. -/
theorem OwnOf.setLocal (h : OwnOf w t) (hs : Skel w) {c : Addr} {x : Conn}
    (hx : w.conn c = some x) (ho : x.z.owner = t)
    (hin : Within c (w.frame t)) {l : Local}
    (hcached : ∀ k v, l.cached k = some v → Held w t v)
    (hkeep : ∀ k p b, x.o.props.hash.find k = some (.stringPtr t p b) →
      x.z.loc.cached k = some (.string p) → l.cached k = some (.string p)) :
    OwnOf (w.setLocal c l) t := by
  obtain ⟨hz, hts, hos⟩ := conn_eq_some.mp hx
  have honly := hs.only hz ho hts
  refine h.change (edit_setLocal hz l) ho hts hin hin
    (fun _ _ _ => rfl) hcached h.frame fun k p b hk => ?_
  obtain ⟨hp, hb⟩ := h.backs hz honly hk
  refine ⟨hp, hb.kept.imp_left fun hc => ?_, hb.fill, hb.drop⟩
  exact hkeep k p b ((entry_eq hos k).symm.trans hk) hc

/-- What thread `t` may have in the local table of `c` it holds. -/
theorem OwnOf.held_cached (h : OwnOf w t) {c : Addr} {z : ZObj}
    (hz : w.mem.get c = some z) (ho : z.owner = t)
    (hin : Within c (w.frame t)) {k : Key} {v : Zval}
    (hv : z.loc.cached k = some v) : Held w t v :=
  (h.cached hz ho (by rw [hin.batch]; exact List.not_mem_nil) hv).1

/-- A sync keeps the invariant of the thread. -/
theorem OwnOf.syncLocal (h : OwnOf w t) (hs : Skel w) {c : Addr} {x : Conn}
    (hx : w.conn c = some x) (ho : x.z.owner = t)
    (hin : Within c (w.frame t)) {l : Local}
    (hl : ∀ k, l.cached k = (w.syncLocal t x.o.props x.z.loc).cached k) :
    OwnOf (w.setLocal c l) t := by
  obtain ⟨hz, -, -⟩ := conn_eq_some.mp hx
  refine h.setLocal hs hx ho hin (fun k v hv => ?_) fun k p b hk hc => ?_
  · rw [hl] at hv
    exact h.held_cached hz ho hin (cached_of_syncLocal hv)
  · rw [hl]
    exact cached_syncLocal_of_keep hc hk (keepCached_own w t p b)

/-- Putting a value that is held under a key that has none of the
thread's strings. -/
theorem OwnOf.putLocal (h : OwnOf w t) (hs : Skel w) {c : Addr} {x : Conn}
    (hx : w.conn c = some x) (ho : x.z.owner = t)
    (hin : Within c (w.frame t)) {k : Key} {v : Zval} (hv : Held w t v)
    (hk : ∀ p, x.z.loc.cached k ≠ some (.string p)) :
    OwnOf (w.putLocal c k v) t := by
  obtain ⟨hz, hts, -⟩ := conn_eq_some.mp hx
  have honly := hs.only hz ho hts
  refine h.change (edit_modify hz fun z => z.loc.put z.declared k v) ho hts
    hin hin (fun _ _ _ => rfl) (fun k' v' hv' => ?_) h.frame
    fun k' p b he => ?_
  · rw [Local.cached_put] at hv'
    split at hv'
    · rw [Option.filter_eq_some_iff] at hv'
      rw [← Option.some.inj hv'.1]
      exact hv
    · exact h.held_cached hz ho hin hv'
  · obtain ⟨hp, hb⟩ := h.backs hz honly he
    refine ⟨hp, hb.kept.imp_left fun hc => ?_, hb.fill, hb.drop⟩
    rw [Local.cached_put, if_neg]
    · exact hc
    · intro hkk
      rw [hkk] at hc
      exact hk p hc

-- ========================================================== full sync

/-- The values a full sync by `t` meets are its own. -/
theorem OwnOf.syncs (h : OwnOf w t) (hs : Skel w)
    (hf : w.frame t = .idle) (hsy : Syncs E t (· = t) w w') :
    OwnOf w' t := by
  induction hsy with
  | refl => exact h
  | grow hu hg ih => exact (ih h hs hf).grow (.single hg)
  | @sync w u c x hu hx ho ih =>
      have hfu : u.frame t = .idle := by
        rw [(hu.extends (hs.connecting t)).frame, hf]
      refine (ih h hs hf).syncLocal (hs.syncs hu) hx ho
        (by rw [hfu]; trivial) fun k => ?_
      rw [Local.cached_initProps, ho]
  | @put w u u₁ u₂ c x k st r hu hx ho hst _ hn hr _ hu₂ hz ih ih' =>
      have hsu := hs.syncs hu
      have hfu : u.frame t = .idle := by
        rw [(hu.extends (hs.connecting t)).frame, hf]
      have hg := grow_of_restored hr (hsu.connecting t)
      have hsu₁ := hsu.grow hg
      have hfu₁ : u₁.frame t = .idle := by rw [hg.extends.frame, hfu]
      have hext := hu₂.extends (hsu₁.connecting t)
      have hou := ih h hs hf
      obtain ⟨-, hts, hos⟩ := conn_eq_some.mp hx
      obtain ⟨n, hos'⟩ := (hg.extends.trans hext).shared hos
      have hx₂ : u₂.conn c = some ⟨x.z, x.s, { x.o with refcount := n }⟩ :=
        conn_eq_some.mpr ⟨hz, hts, hos'⟩
      refine (ih' (hou.grow hg) hsu₁ hfu₁).putLocal (hsu₁.syncs hu₂) hx₂ ho
        (by rw [hext.frame, hfu₁]; trivial) ?_ fun p => ?_
      · exact (restored_held hsu
          (hou.owned ((entry_eq hos k).trans hst)) hr).extends hext
      · rw [hn]
        exact fun h => (nomatch h)

/-- A full sync of an idle thread changes its own tables only. -/
theorem visits_own : Visits E t (· = t)
    (fun w => Skel w ∧ OwnOf w t ∧ w.frame t = .idle)
    (fun w c => Held w t (.object c)) where
  syncs h hsy := ⟨h.1.syncs hsy, h.2.1.syncs h.1 h.2.2 hsy, by
    rw [(hsy.extends (h.1.connecting t)).frame, h.2.2]⟩
  mono h hv hsy := Held.extends (hsy.extends (h.1.connecting t)) hv
  connecting h := h.1.connecting t
  owner _ hv hx := by
    obtain ⟨z, hz, ho⟩ := hv
    rw [(conn_eq_some.mp hx).1] at hz
    exact (Option.some.inj hz) ▸ ho
  cached h hv hz hc := by
    obtain ⟨z', hz', ho⟩ := hv
    rw [hz] at hz'
    rw [← Option.some.inj hz'] at ho
    exact (h.2.1.cached hz ho (by rw [h.2.2]; exact List.not_mem_nil) hc).1
  gc h hv hz hl := by
    obtain ⟨z', hz', ho⟩ := hv
    rw [hz] at hz'
    rw [← Option.some.inj hz'] at ho
    exact (h.2.1.gc hz ho (by rw [h.2.2]; exact List.not_mem_nil) hl).1
  restored {w u st l} h hr := by
    cases st with
    | stringPtr owner p b =>
        exfalso
        change w.restoreStringPtr E t owner p = _ at hr
        unfold restoreStringPtr at hr
        split at hr
        · cases hr
        · split at hr <;> cases hr
    | _ =>
        exact restoreZval_held h.1 (fun _ _ h => by cases h) hr

theorem Syncs.by (hs : Skel w) (h : Syncs E a (· = a) w w') :
    By a w w' := by
  induction h with
  | refl => exact .refl a _
  | grow _ hg ih => exact (ih hs).trans (Grow.by (.single hg))
  | @sync w u c x hu hx ho ih =>
      exact (ih hs).trans ((edit_setLocal (conn_eq_some.mp hx).1 _).by ho
        (fun _ => rfl) fun _ h => h)
  | @put w u u₁ u₂ c x k st r hu hx ho _ _ _ hr _ hu₂ hz ih ih' =>
      have hsu := hs.syncs hu
      have hg := grow_of_restored hr (hsu.connecting a)
      exact (((ih hs).trans hg.by).trans (ih' (hsu.grow hg))).trans
        ((edit_modify hz fun z => z.loc.put z.declared k r.zval).by ho
          (fun _ => rfl) fun _ h => h)

end PmmpThread.Model.World
