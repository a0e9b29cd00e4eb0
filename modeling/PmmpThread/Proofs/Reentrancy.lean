/-
When connecting is re-entrant.

# Where the code goes wrong

The intent to connect is one variable of the thread. A construction in
the gap of a connect finds it set and becomes a connection; a connect in
that gap resets it to null, and the outer create handler makes a new
ts_obj instead of the connection.

# What is shown

Everything that user code makes is what it asked for if and only if
nothing is made in the gap of a connect that creates its connection
(`Calm`). The proof runs the code in two modes, with and without a
pending connect. With one, code that makes anything either gets
something wrong at once or leaves no pending connect, and then the outer
create handler gets it wrong.
-/
import PmmpThread.Model.World
import PmmpThread.Proofs.Strings

namespace PmmpThread.Model.World

open Zend

variable {E : Engine} {t : ThreadId} {T : Addr → Prop} {w w' : World}

-- ========================================================= the condition

/-- The code makes nothing: every connect finds its connection, or that
its object is gone. -/
def MakesNothing (t : ThreadId) (w : World) : Prog → Prop
  | .done => True
  | .construct _ _ _ => False
  | .connect a _ _ next =>
      (w.findConnection t a).isSome = true ∧ MakesNothing t w next

/-- In the gap of every connect that creates its connection nothing is
made. -/
def Calm (E : Engine) (t : ThreadId) : Prog → World → Prop
  | .done, _ => True
  | .construct cls gap next, w =>
      Calm E t gap w ∧ ∀ g m, exec E t gap w = some g →
        g.1.create E t cls = some m → Calm E t next m.2
  | .connect a cls gap next, w =>
      match w.findConnection t a with
      | some _ => Calm E t next w
      | none => MakesNothing t w gap
          ∧ ∀ m, (w.setConnecting t (some a)).create E t cls = some m →
            Calm E t next (m.2.setConnecting t none)

/-- Every connect of the code is to an address that satisfies `T`. -/
def Targets (T : Addr → Prop) : Prog → Prop
  | .done => True
  | .construct _ gap next => Targets T gap ∧ Targets T next
  | .connect a _ gap next => T a ∧ Targets T gap ∧ Targets T next

-- ======================================================== the invariant

/-- What holds between any two create handlers of thread `t`, whether or
not they did what was asked. -/
structure Sane (t : ThreadId) (T : Addr → Prop) (w : World) : Prop where
  objects : ∀ {a}, a ∈ w.objects → (w.mem.get a).isSome = true
  tsLive : ∀ {a z s}, w.mem.get a = some z → z.tsObj = some s →
    (w.shared.get s).isSome = true
  resolve : ∀ {s l}, w.resolve t s = some l → w.tsOf l = some s
  built : ∀ {a z}, T a → w.mem.get a = some z → z.tsObj.isSome = true

/-- Objects that are there keep their ts_obj. -/
def Keeps (w w' : World) : Prop :=
  ∀ a s, w.tsOf a = some s → w'.tsOf a = some s

theorem Keeps.trans {u : World} (h : Keeps w u) (h' : Keeps u w') :
    Keeps w w' := fun a s hs => h' a s (h a s hs)

theorem Sane.setConnecting (h : Sane t T w) (a : Option Addr) :
    Sane t T (w.setConnecting t a) :=
  ⟨h.objects, h.tsLive, h.resolve, h.built⟩

theorem tsOf_of_same (h : SameSkel w w') (a : Addr) :
    w'.tsOf a = w.tsOf a := by
  have hm := h.mem a
  unfold tsOf
  cases hz : w.mem.get a with
  | none =>
      rw [hz] at hm
      rw [Option.map_eq_none_iff.mp hm]
  | some z =>
      rw [hz] at hm
      obtain ⟨z', hz', heq⟩ := Option.map_eq_some_iff.mp hm
      rw [hz']
      exact congrArg Prod.snd heq

theorem Sane.same (h : Sane t T w) (hsame : SameSkel w w') :
    Sane t T w' where
  objects {a} ha := by
    rw [hsame.objects] at ha
    have hm := congrArg Option.isSome (hsame.mem a)
    rw [Option.isSome_map, Option.isSome_map] at hm
    rw [hm]
    exact h.objects ha
  tsLive {a z s} hz hts := by
    obtain ⟨z', hz', -, hts'⟩ := hsame.get hz
    have hm := congrArg Option.isSome (hsame.shared s)
    rw [Option.isSome_map, Option.isSome_map] at hm
    rw [hm]
    exact h.tsLive hz' (hts'.trans hts)
  resolve hr := by
    rw [hsame.resolve] at hr
    rw [tsOf_of_same hsame]
    exact h.resolve hr
  built ha hz := by
    obtain ⟨z, hz', -, hts'⟩ := hsame.get hz
    rw [← hts']
    exact h.built ha hz'

-- ================================================== one create handler

/-- A new object with a ts_obj. -/
theorem Sane.place (h : Sane t T w) {s : TsAddr} {z : ZObj}
    (hts : z.tsObj = some s)
    (hmem : w'.mem = w.mem.place (w.mem.next E.object) z)
    (hobj : w'.objects = w.objects.insert (w.mem.next E.object))
    (hres : w'.resolve = w.resolve)
    (hsh : ∀ s', (w.shared.get s').isSome = true →
      (w'.shared.get s').isSome = true)
    (hs : (w'.shared.get s).isSome = true) :
    Sane t T w' ∧ Keeps w w' ∧ w'.tsOf (w.mem.next E.object) = some s := by
  have hkeeps : Keeps w w' := by
    intro a s' hs'
    obtain ⟨za, hza, htsa⟩ := Option.bind_eq_some_iff.mp hs'
    unfold tsOf
    rw [hmem, Heap.get_place, if_neg (Heap.ne_next_of_get hza), hza]
    exact htsa
  have hget : ∀ {a za}, w'.mem.get a = some za →
      za = z ∨ w.mem.get a = some za := by
    intro a za hza
    rw [hmem, Heap.get_place] at hza
    split at hza
    · exact Or.inl (Option.some.inj hza).symm
    · exact Or.inr hza
  refine ⟨⟨fun {a} ha => ?_, fun {a za s'} hza htsa => ?_,
    fun hr => ?_, fun {a za} ha hza => ?_⟩, hkeeps, ?_⟩
  · rw [hmem, Heap.get_place]
    split
    · rfl
    case isFalse hne =>
      rw [hobj] at ha
      rcases List.mem_insert_iff.mp ha with ha | ha
      · exact absurd ha hne
      · exact h.objects ha
  · rcases hget hza with rfl | hza
    · rw [← Option.some.inj (hts.symm.trans htsa)]
      exact hs
    · exact hsh s' (h.tsLive hza htsa)
  · rw [hres] at hr
    exact hkeeps _ _ (h.resolve hr)
  · rcases hget hza with rfl | hza
    · rw [hts]
      rfl
    · exact h.built ha hza
  · unfold tsOf
    rw [hmem, Heap.get_place_self]
    exact hts

theorem tsOf_registerObject (w : World) (t : ThreadId) (a c : Addr) :
    (w.registerObject t a).tsOf c = w.tsOf c := by
  unfold registerObject
  split
  · rfl
  · exact tsOf_modify w a c fun _ => rfl

theorem Sane.registerObject (h : Sane t T w) {a : Addr} {s : TsAddr}
    (hs : w.tsOf a = some s) : Sane t T (w.registerObject t a) := by
  have hreg : w.registerObject t a = { w with
      resolve := (w.registerObject t a).resolve
      mem := (w.registerObject t a).mem } := by
    unfold World.registerObject
    rw [hs]
  have hsame : SameSkel w { w with mem := (w.registerObject t a).mem } := by
    unfold World.registerObject
    simp only [hs]
    exact sameSkel_modify w a _ fun _ => ⟨rfl, rfl⟩
  have hsane := h.same hsame
  rw [hreg]
  refine ⟨hsane.objects, hsane.tsLive, fun {s' l} hr => ?_, hsane.built⟩
  change (w.registerObject t a).resolve t s' = some l at hr
  show (w.registerObject t a).tsOf l = some s'
  rw [tsOf_registerObject]
  unfold World.registerObject at hr
  simp only [hs] at hr
  cases hrs : w.resolve t s with
  | some l' =>
      simp only [hrs] at hr
      exact h.resolve hr
  | none =>
      simp only [hrs] at hr
      rw [Function.update_self, Function.update_apply] at hr
      split at hr
      case isTrue hss =>
        rw [← Option.some.inj hr, hss]
        exact hs
      case isFalse => exact h.resolve hr

theorem connecting_registerObject (w : World) (t : ThreadId) (a : Addr) :
    (w.registerObject t a).connecting = w.connecting := by
  unfold registerObject
  split <;> rfl

/-- Without a pending connect a create handler makes a new ts_obj. -/
theorem create_plain (h : Sane t T w) (hc : w.connecting t = none)
    (cls : Class) :
    ∃ l w', w.create E t cls = some (l, w') ∧ w.hasNewTs w' l = true
      ∧ Sane t T w' ∧ Keeps w w' ∧ w'.connecting t = none := by
  -- the allocation and the ts_obj together
  have hobj : ((w.objectAlloc E t cls.declared).2.tsObjectCtor E t
      (w.mem.next E.object) cls.scope).mem
      = w.mem.place (w.mem.next E.object)
        { owner := t, tsObj := some (w.shared.next E.shared),
          loc := ⟨none, 0⟩, declared := cls.declared, gc := [] } :=
    Heap.modify_place_self _ _ _ _
  obtain ⟨hsane, hkeeps, hts⟩ := h.place (E := E) (s := w.shared.next E.shared)
    rfl hobj rfl rfl
    (fun s' hs' => by
      show ((w.shared.place _ _).get s').isSome = true
      rw [Heap.get_place]
      split
      · rfl
      · exact hs')
    (congrArg Option.isSome (Heap.get_place_self w.shared _ _))
  obtain ⟨hsame, -⟩ := sameSkel_writePropertyDefaults
    ((w.objectAlloc E t cls.declared).2.tsObjectCtor E t
      (w.mem.next E.object) cls.scope) (w.mem.next E.object) cls.defaults
  have hts' := (tsOf_of_same hsame (w.mem.next E.object)).trans hts
  refine ⟨w.mem.next E.object, _, ?_, ?_,
    (hsane.same hsame).registerObject hts', fun a s hs => ?_, ?_⟩
  · unfold create createObject baseCtor
    have hc' : (w.objectAlloc E t cls.declared).2.connecting t = none := hc
    simp only [hc']
    rfl
  · unfold hasNewTs
    rw [tsOf_registerObject, hts', Option.map_some, Option.getD_some,
      Heap.get_next]
    rfl
  · rw [tsOf_registerObject, tsOf_of_same hsame]
    exact hkeeps a s hs
  · rw [connecting_registerObject, hsame.connecting]
    exact hc

/-- With one it makes the connection. -/
theorem create_connecting (h : Sane t T w) {a : Addr} {s : TsAddr}
    (hc : w.connecting t = some a) (hs : w.tsOf a = some s) (cls : Class) :
    ∃ l w', w.create E t cls = some (l, w') ∧ w'.tsOf l = some s
      ∧ Sane t T w' ∧ Keeps w w' ∧ w'.connecting t = some a := by
  obtain ⟨z, hz, hzs⟩ := Option.bind_eq_some_iff.mp hs
  have hlive := h.tsLive hz hzs
  have hsa : (w.objectAlloc E t cls.declared).2.tsOf a = some s := by
    unfold tsOf
    rw [get_objectAlloc hz]
    exact hzs
  -- the world after `_pmmpthread_connect_nolock`
  have hcon : ∃ u, (w.objectAlloc E t cls.declared).2.connectNolock a
      (w.mem.next E.object) = some u
      ∧ u.mem = w.mem.place (w.mem.next E.object)
        { owner := t, tsObj := some s, loc := ⟨none, 0⟩,
          declared := cls.declared, gc := [] }
      ∧ u.objects = w.objects.insert (w.mem.next E.object)
      ∧ u.resolve = w.resolve ∧ u.connecting = w.connecting
      ∧ u.shared = w.shared.modify s fun o =>
        { o with refcount := o.refcount + 1 } := by
    unfold connectNolock
    rw [hsa, Option.map_some]
    exact ⟨_, rfl, Heap.modify_place_self _ _ _ _, rfl, rfl, rfl, rfl⟩
  obtain ⟨u, hu, hmem, hobj, hres, hconn, hsh⟩ := hcon
  obtain ⟨hsane, hkeeps, hts⟩ := h.place (E := E) (s := s) rfl hmem hobj hres
    (fun s' hs' => by
      rw [hsh, Heap.get_modify_isSome]
      exact hs')
    (by
      rw [hsh, Heap.get_modify_isSome]
      exact hlive)
  refine ⟨w.mem.next E.object, u.registerObject t (w.mem.next E.object), ?_,
    ?_, hsane.registerObject hts, fun a' s' hs' => ?_, ?_⟩
  · unfold create createObject baseCtor
    have hc' : (w.objectAlloc E t cls.declared).2.connecting t = some a := hc
    have hl : (w.objectAlloc E t cls.declared).1 = w.mem.next E.object := rfl
    simp only [hc', hl, hu, Option.map_some]
  · rw [tsOf_registerObject]
    exact hts
  · rw [tsOf_registerObject]
    exact hkeeps a' s' hs'
  · rw [connecting_registerObject, hconn]
    exact hc

/-- What a connect finds is right. -/
theorem Sane.found (h : Sane t T w) {a : Addr} {r : Connected}
    (hf : w.findConnection t a = some r) :
    r = .gone ∨ ∃ l, r = .ok l ∧ w.tsOf l = w.tsOf a := by
  unfold findConnection at hf
  split at hf
  case isFalse => exact Or.inl (Option.some.inj hf).symm
  case isTrue hv =>
    have hlive := h.objects (of_decide_eq_true hv)
    split at hf
    case h_1 hz =>
      rw [hz] at hlive
      cases hlive
    case h_2 z hz =>
      split at hf
      case isTrue => exact Or.inr ⟨a, (Option.some.inj hf).symm, rfl⟩
      case isFalse =>
        obtain ⟨l, hl, hr⟩ := Option.map_eq_some_iff.mp hf
        obtain ⟨s, hs, hl⟩ := Option.bind_eq_some_iff.mp hl
        refine Or.inr ⟨l, hr.symm, ?_⟩
        rw [h.resolve hl]
        unfold tsOf
        rw [hz]
        exact hs.symm

/-- What a connect has to connect to is there. -/
theorem Sane.missing (h : Sane t T w) {a : Addr} (ha : T a)
    (hf : w.findConnection t a = none) : ∃ s, w.tsOf a = some s := by
  obtain ⟨-, z, hz, -⟩ := findConnection_none hf
  obtain ⟨s, hs⟩ := Option.isSome_iff_exists.mp (h.built ha hz)
  refine ⟨s, ?_⟩
  exact (tsOf_of_get hz).trans hs

-- ============================================================ user code

theorem hasNewTs_ne (h : Sane t T w) {l a : Addr} {s : TsAddr}
    (hn : w.hasNewTs w' l = true) (hs : w.tsOf a = some s) :
    w'.tsOf l ≠ some s := by
  intro hl
  obtain ⟨z, hz, hzs⟩ := Option.bind_eq_some_iff.mp hs
  have hlive := h.tsLive hz hzs
  unfold hasNewTs at hn
  rw [hl, Option.map_some, Option.getD_some] at hn
  rw [Option.isNone_iff_eq_none.mp hn] at hlive
  cases hlive

/-- Code that makes nothing changes nothing and gets nothing wrong. -/
theorem exec_makesNothing (p : Prog) (h : Sane t T w)
    (hp : MakesNothing t w p) : exec E t p w = some (w, true) := by
  induction p with
  | done => rfl
  | construct cls gap next _ _ => cases hp
  | connect a cls gap next _ ih =>
      obtain ⟨hf, hp⟩ := hp
      obtain ⟨r, hr⟩ := Option.isSome_iff_exists.mp hf
      unfold exec
      rcases h.found hr with rfl | ⟨l, rfl, hl⟩
      · simp only [hr]
        exact ih hp
      · simp only [hr, ih hp, Option.map_some, hl, BEq.rfl, Bool.and_true]

/-- What user code leaves. `pending` is the connect whose create handler
is still to come. -/
structure Ends (t : ThreadId) (T : Addr → Prop) (w : World)
    (pending : Option Addr) (r : World × Bool) : Prop where
  sane : Sane t T r.1
  keeps : Keeps w r.1
  connecting : r.1.connecting t = none ∨ r.1.connecting t = pending

theorem makesNothing_setConnecting (w : World) (t : ThreadId)
    (a : Option Addr) (p : Prog) :
    MakesNothing t (w.setConnecting t a) p ↔ MakesNothing t w p := by
  induction p with
  | done => exact Iff.rfl
  | construct cls gap next _ _ => exact Iff.rfl
  | connect b cls gap next _ ih =>
      exact and_congr Iff.rfl ih

theorem exec_found (h : Sane t T w) {a : Addr} {cls : Class}
    {gap next : Prog} {q : Connected} (hq : w.findConnection t a = some q) :
    exec E t (.connect a cls gap next) w = exec E t next w := by
  conv_lhs => unfold exec
  rcases h.found hq with rfl | ⟨l, rfl, hl⟩
  · simp only [hq]
  · simp only [hq, hl, BEq.rfl, Bool.true_and]
    exact Option.map_id'

/-- The claims about code without and with a pending connect. -/
def Spec (E : Engine) (t : ThreadId) (T : Addr → Prop) (p : Prog) : Prop :=
  ∀ {w : World}, Sane t T w →
    (w.connecting t = none → ∃ r, exec E t p w = some r
      ∧ Ends t T w none r ∧ (r.2 = true ↔ Calm E t p w))
    ∧ ∀ a s, w.connecting t = some a → w.tsOf a = some s →
      ∃ r, exec E t p w = some r ∧ Ends t T w (some a) r
        ∧ (¬ MakesNothing t w p → r.2 = false ∨ r.1.connecting t = none)

theorem spec_construct {cls : Class} {gap next : Prog}
    (hgap : Spec E t T gap) (hnext : Spec E t T next) :
    Spec E t T (.construct cls gap next) := by
  intro w h
  refine ⟨fun hc => ?_, fun a s hc hs => ?_⟩
  · obtain ⟨g, hg, hge, hgc⟩ := (hgap h).1 hc
    have hcg : g.1.connecting t = none := hge.connecting.elim id id
    obtain ⟨l, u, hu, hnew, hsu, hku, hcu⟩ :=
      create_plain (E := E) hge.sane hcg cls
    obtain ⟨n, hn, hne, hnc⟩ := (hnext hsu).1 hcu
    refine ⟨(n.1, g.2 && g.1.hasNewTs u l && n.2), ?_,
      ⟨hne.sane, (hge.keeps.trans hku).trans hne.keeps,
        hne.connecting⟩, ?_⟩
    · unfold exec
      rw [hg, Option.bind_some, hu, Option.bind_some, hn]
      rfl
    · rw [hnew, Bool.and_true, Bool.and_eq_true_iff, hgc, hnc]
      refine and_congr_right fun _ => ⟨fun hcalm g' m hg' hm => ?_,
        fun hall => hall g _ hg hu⟩
      rw [hg] at hg'
      rw [← Option.some.inj hg', hu] at hm
      rw [← Option.some.inj hm]
      exact hcalm
  · obtain ⟨g, hg, hge, -⟩ := (hgap h).2 a s hc hs
    rcases hge.connecting with hcg | hcg
    · -- the gap has used up the pending connect
      obtain ⟨l, u, hu, -, hsu, hku, hcu⟩ :=
        create_plain (E := E) hge.sane hcg cls
      obtain ⟨n, hn, hne, -⟩ := (hnext hsu).1 hcu
      have hcn : n.1.connecting t = none := hne.connecting.elim id id
      refine ⟨(n.1, g.2 && g.1.hasNewTs u l && n.2), ?_,
        ⟨hne.sane, (hge.keeps.trans hku).trans hne.keeps, Or.inl hcn⟩,
        fun _ => Or.inr hcn⟩
      unfold exec
      rw [hg, Option.bind_some, hu, Option.bind_some, hn]
      rfl
    · -- the construction becomes the connection that was pending
      have hsg := hge.keeps a s hs
      obtain ⟨l, u, hu, hl, hsu, hku, hcu⟩ :=
        create_connecting (E := E) hge.sane hcg hsg cls
      obtain ⟨n, hn, hne, -⟩ := (hnext hsu).2 a s hcu (hku a s hsg)
      have hold : g.1.hasNewTs u l = false := by
        cases hnew : g.1.hasNewTs u l with
        | false => rfl
        | true => exact absurd hl (hasNewTs_ne hge.sane hnew hsg)
      refine ⟨(n.1, g.2 && g.1.hasNewTs u l && n.2), ?_,
        ⟨hne.sane, (hge.keeps.trans hku).trans hne.keeps,
          hne.connecting⟩, fun _ => Or.inl ?_⟩
      · unfold exec
        rw [hg, Option.bind_some, hu, Option.bind_some, hn]
        rfl
      · rw [hold, Bool.and_false, Bool.false_and]

/-- A connect that creates its connection: right exactly if its gap makes
nothing, and then nothing is pending. -/
theorem exec_creating {a : Addr} (cls : Class) {gap next : Prog} (ha : T a)
    (hgap : Spec E t T gap) (hnext : Spec E t T next) (h : Sane t T w)
    (hf : w.findConnection t a = none) :
    ∃ r, exec E t (.connect a cls gap next) w = some r ∧ Ends t T w none r
      ∧ (r.2 = true ↔ Calm E t (.connect a cls gap next) w) := by
  obtain ⟨s, hs⟩ := h.missing ha hf
  have hc : (w.setConnecting t (some a)).connecting t = some a :=
    Function.update_self _ _ _
  -- the create handler after the gap
  have hfinish : ∀ {g : World × Bool} {l u},
      exec E t gap (w.setConnecting t (some a)) = some g →
      Keeps w g.1 → g.1.create E t cls = some (l, u) → Sane t T u →
      Keeps g.1 u → ∃ n, exec E t (.connect a cls gap next) w
          = some (n.1, g.2 && u.tsOf l == some s && n.2)
        ∧ Ends t T w none n
        ∧ (n.2 = true ↔ Calm E t next (u.setConnecting t none)) := by
    intro g l u hg hkg hu hsu hku
    obtain ⟨n, hn, hne, hnc⟩ := (hnext (hsu.setConnecting none)).1
      (Function.update_self _ _ _)
    refine ⟨n, ?_, ⟨hne.sane, (hkg.trans hku).trans hne.keeps,
      hne.connecting⟩, hnc⟩
    unfold exec
    simp only [hf]
    rw [hg, Option.bind_some, hu, Option.bind_some, hn, hs]
    rfl
  have hcalm : Calm E t (.connect a cls gap next) w
      ↔ MakesNothing t w gap
        ∧ ∀ m, (w.setConnecting t (some a)).create E t cls = some m →
          Calm E t next (m.2.setConnecting t none) := by
    conv_lhs => unfold Calm
    simp only [hf]
  rw [hcalm]
  by_cases hm : MakesNothing t w gap
  · have hg := exec_makesNothing (E := E) gap (h.setConnecting (some a))
      ((makesNothing_setConnecting w t (some a) gap).mpr hm)
    obtain ⟨l, u, hu, hl, hsu, hku, -⟩ :=
      create_connecting (E := E) (h.setConnecting (some a)) hc hs cls
    obtain ⟨n, hn, hne, hnc⟩ := hfinish hg (fun _ _ hs => hs) hu hsu hku
    refine ⟨_, hn, ⟨hne.sane, hne.keeps, hne.connecting⟩, ?_⟩
    rw [hl, BEq.rfl, Bool.and_true, Bool.true_and, hnc]
    refine ⟨fun hcalm => ⟨hm, fun m hm' => ?_⟩, fun hall => hall.2 _ hu⟩
    rw [hu] at hm'
    rw [← Option.some.inj hm']
    exact hcalm
  · obtain ⟨g, hg, hge, hbad⟩ := (hgap (h.setConnecting (some a))).2 a s hc hs
    have hkg : Keeps w g.1 := hge.keeps
    have hsg := hkg a s hs
    have hwrong : ∃ l u, g.1.create E t cls = some (l, u) ∧ Sane t T u
        ∧ Keeps g.1 u ∧ (g.2 && u.tsOf l == some s) = false := by
      rcases hge.connecting with hcg | hcg
      · obtain ⟨l, u, hu, hnew, hsu, hku, -⟩ :=
          create_plain (E := E) hge.sane hcg cls
        refine ⟨l, u, hu, hsu, hku, ?_⟩
        rw [beq_eq_false_iff_ne.mpr (hasNewTs_ne hge.sane hnew hsg),
          Bool.and_false]
      · obtain ⟨l, u, hu, -, hsu, hku, -⟩ :=
          create_connecting (E := E) hge.sane hcg hsg cls
        refine ⟨l, u, hu, hsu, hku, ?_⟩
        rcases hbad fun hn => hm
          ((makesNothing_setConnecting w t (some a) gap).mp hn) with hb | hb
        · rw [hb, Bool.false_and]
        · rw [hcg] at hb
          cases hb
    obtain ⟨l, u, hu, hsu, hku, hright⟩ := hwrong
    obtain ⟨n, hn, hne, -⟩ := hfinish hg hkg hu hsu hku
    refine ⟨_, hn, ⟨hne.sane, hne.keeps, hne.connecting⟩, ?_⟩
    rw [hright, Bool.false_and]
    exact ⟨fun h => (nomatch h), fun h => absurd h.1 hm⟩

theorem spec_connect {a : Addr} {cls : Class} {gap next : Prog} (ha : T a)
    (hgap : Spec E t T gap) (hnext : Spec E t T next) :
    Spec E t T (.connect a cls gap next) := by
  intro w h
  cases hf : w.findConnection t a with
  | some q =>
      rw [exec_found h hf]
      refine ⟨fun hc => ?_, fun b s hc hs => ?_⟩
      · obtain ⟨r, hr, he, hcalm⟩ := (hnext h).1 hc
        refine ⟨r, hr, he, hcalm.trans ?_⟩
        conv_rhs => unfold Calm
        simp only [hf]
      · obtain ⟨r, hr, he, hbad⟩ := (hnext h).2 b s hc hs
        refine ⟨r, hr, he, fun hn => hbad fun hm => hn ⟨?_, hm⟩⟩
        rw [hf]
        rfl
  | none =>
      obtain ⟨r, hr, he, hcalm⟩ := exec_creating cls ha hgap hnext h hf
      have hcr : r.1.connecting t = none := he.connecting.elim id id
      exact ⟨fun _ => ⟨r, hr, he, hcalm⟩, fun b s _ _ => ⟨r, hr,
        ⟨he.sane, he.keeps, Or.inl hcr⟩, fun _ => Or.inr hcr⟩⟩

/-- User code with and without a pending connect. -/
theorem exec_spec (p : Prog) (ht : Targets T p) : Spec E t T p := by
  induction p with
  | done =>
      intro w h
      exact ⟨fun hc => ⟨(w, true), rfl, ⟨h, fun _ _ hs => hs, Or.inl hc⟩,
        fun _ => trivial, fun _ => rfl⟩, fun a s hc _ => ⟨(w, true), rfl,
          ⟨h, fun _ _ hs => hs, Or.inr hc⟩, fun hn => absurd trivial hn⟩⟩
  | construct cls gap next ihg ihn =>
      exact spec_construct (ihg ht.1) (ihn ht.2)
  | connect a cls gap next ihg ihn =>
      exact spec_connect ht.1 (ihg ht.2.1) (ihn ht.2.2)

/-- Connecting is re-entrant, exactly. Whatever user code a thread runs
from a reachable world, with gaps nested to any depth, it comes to its
end; and everything that was made is what was asked for if and only if
nothing was made in the gap of a connect that had to create its
connection. The objects connected to are constructed: nothing refers to
an object before its create handler has returned. -/
theorem connecting_reentrant_iff (E : Engine) (w : World)
    (h : Reachable E w) (t : ThreadId) (p : Prog)
    (ht : Targets (fun a => ∀ z, w.mem.get a = some z →
      z.tsObj.isSome = true) p) :
    ∃ w' ok, exec E t p w = some (w', ok) ∧ (ok = true ↔ Calm E t p w) := by
  have hs := h.skel
  have hsane : Sane t (fun a => ∀ z, w.mem.get a = some z →
      z.tsObj.isSome = true) w := by
    refine ⟨fun {a} ha => (hs.objects a).mp ha, fun {a z s} hz hts => ?_,
      fun {s l} hr => ?_, fun {a z} ha hz => ha z hz⟩
    · obtain ⟨o, ho⟩ := hs.tsLive hz hts
      rw [ho]
      rfl
    · obtain ⟨z, hz, -, hts⟩ := hs.resolveLive hr
      exact (tsOf_of_get hz).trans hts
  obtain ⟨r, hr, -, hcalm⟩ := (exec_spec p ht hsane).1 (hs.connecting t)
  exact ⟨r.1, r.2, hr, hcalm⟩

/-- A class without properties. -/
def plainClass : Class := ⟨[], .threaded, []⟩

/-- Thread 2 connects to object 1 of thread 1, inside the gap of a
construction. -/
def connectInConstruct : Prog :=
  .construct plainClass (.connect 1 plainClass .done .done) .done

theorem connecting_reentrant_iff_connectInConstruct :
    ∃ w w', run (demoEngine .bump) init [.alloc 1 [] .threaded [], .ctor 1]
        = some w
      ∧ exec (demoEngine .bump) 2 connectInConstruct w = some (w', true) := by
  have hview : (run (demoEngine .bump) init
      [.alloc 1 [] .threaded [], .ctor 1]).map
        (fun w => ((w.mem.get 1).map fun z => z.tsObj.isSome,
          (w.findConnection 2 1).isNone)) = some (some true, true) := by
    decide
  obtain ⟨w, hw, hv⟩ := Option.map_eq_some_iff.mp hview
  obtain ⟨hz, hf⟩ := Prod.mk.inj hv
  obtain ⟨z, hz, hts⟩ := Option.map_eq_some_iff.mp hz
  have htarget : ∀ z', w.mem.get 1 = some z' → z'.tsObj.isSome = true := by
    intro z' hz'
    rw [hz] at hz'
    rw [← Option.some.inj hz']
    exact hts
  obtain ⟨w', ok, hexec, hcalm⟩ := connecting_reentrant_iff (demoEngine .bump)
    w ⟨_, hw⟩ 2 connectInConstruct ⟨⟨htarget, trivial, trivial⟩, trivial⟩
  have hok : ok = true := by
    refine hcalm.mpr ⟨?_, fun _ _ _ _ => trivial⟩
    unfold Calm
    rw [Option.isNone_iff_eq_none.mp hf]
    exact ⟨trivial, fun _ _ => trivial⟩
  exact ⟨w, w', hw, hok ▸ hexec⟩

/-- The other way round, a construction in the gap of a connect. -/
def constructInConnect : Prog :=
  .connect 1 plainClass (.construct plainClass .done .done) .done

theorem construct_inside_connect :
    ¬ ∀ (E : Engine) (w : World) (t : ThreadId) (p : Prog), Reachable E w →
      Targets (fun a => ∀ z, w.mem.get a = some z →
        z.tsObj.isSome = true) p →
      ∃ w', exec E t p w = some (w', true) := by
  intro h
  have hview : (run (demoEngine .bump) init
      [.alloc 1 [] .threaded [], .ctor 1]).map
        (fun w => ((w.mem.get 1).map fun z => z.tsObj.isSome,
          (exec (demoEngine .bump) 2 constructInConnect w).map Prod.snd))
      = some (some true, some false) := by
    decide
  obtain ⟨w, hw, hv⟩ := Option.map_eq_some_iff.mp hview
  obtain ⟨hz, he⟩ := Prod.mk.inj hv
  obtain ⟨z, hz, hts⟩ := Option.map_eq_some_iff.mp hz
  obtain ⟨w', hw'⟩ := h (demoEngine .bump) w 2 constructInConnect ⟨_, hw⟩
    ⟨fun z' hz' => by
      rw [hz] at hz'
      rw [← Option.some.inj hz']
      exact hts, ⟨trivial, trivial⟩, trivial⟩
  rw [hw'] at he
  cases he

end PmmpThread.Model.World
