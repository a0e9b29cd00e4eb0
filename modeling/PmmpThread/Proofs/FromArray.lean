/-
`ThreadSafeArray::fromArray`, and what any thread reads from the result.

One read of an entry whose storage is still good returns a value that the
storage denotes, whether it is cached or restored (`readMember_spec`), and
leaves everything as it was but for new connections, strings and what is
cached (`Extends`). So the entries can be read one after the other, and a
nested ThreadSafeArray in between. The recursion goes through the array
that was given, with the tables that keep it (`StandForAll`).

An enum case is stored by its names. A thread that does not have it cannot
restore it, nor an object whose class it cannot initialise. What
`fromArray` itself makes are ThreadSafeArrays, an internal class without
constants, which every thread can initialise.
-/
import PmmpThread.Model.ReadBack
import PmmpThread.Proofs.CachedReads
import PmmpThread.Proofs.MergeRuns

namespace PmmpThread.Model.World

open Zend

variable {E : Engine} {t t' : ThreadId} {w w₀ w' u : World}

-- ======================================================= the new tables

theorem Made.grow (h : Made w₀ w) (hg : Grow E t w w') : Made w₀ w' := by
  obtain ⟨hb, hold⟩ := hg.noNewShared
  refine ⟨fun {s o'} ho hn => ?_, fun {c y} hy hn => ?_, hb ▸ h.births⟩
  · obtain ⟨o, ho, hbirth⟩ := hold s o' ho
    rw [← hbirth]
    exact h.born ho hn
  · obtain ⟨hz, hts, ho'⟩ := conn_eq_some.mp hy
    obtain ⟨o, ho, -⟩ := hold _ _ ho'
    intro k v hv
    rcases hg.new hz with hz | ⟨-, hnew⟩
    · obtain ⟨st, hst, hd⟩ := h.cache (x := ⟨y.z, y.s, o⟩)
        (conn_eq_some.mpr ⟨hz, hts, ho⟩) hn k v hv
      refine ⟨st, ?_, hd.extends hg.extends⟩
      have hprops := hg.props y.s
      rw [ho, ho'] at hprops
      rw [show y.o.props = o.props from Option.some.inj hprops]
      exact hst
    · rw [hnew.cached] at hv
      cases hv

/-- A change of what one connection has cached. -/
theorem Made.modify (h : Made w₀ w) {c : Addr} {x : Conn}
    (hx : w.conn c = some x) (f : ZObj → Local)
    (hf : w₀.shared.get x.s = none → ∀ k v, (f x.z).cached k = some v →
      x.z.loc.cached k = some v
        ∨ ∃ st, x.o.props.hash.find k = some st ∧ Denotes w st v) :
    Made w₀ { w with mem := w.mem.modify c fun z =>
      { z with loc := f z } } := by
  have hext := extends_modify_loc w c f
  refine ⟨fun ho hn => h.born ho hn, fun {d y} hy hn => ?_, h.births⟩
  obtain ⟨hz, hts, ho⟩ := conn_eq_some.mp hy
  change w.shared.get y.s = some y.o at ho
  obtain ⟨hxz, hxts, hxo⟩ := conn_eq_some.mp hx
  change (w.mem.modify c _).get d = _ at hz
  rw [Heap.get_modify] at hz
  intro k v hv
  split at hz
  case isFalse =>
    obtain ⟨st, hst, hd⟩ := h.cache (x := y)
      (conn_eq_some.mpr ⟨hz, hts, ho⟩) hn k v hv
    exact ⟨st, hst, hd.extends hext⟩
  case isTrue heq =>
    rw [heq, hxz] at hz
    have hyz : y.z = { x.z with loc := f x.z } := (Option.some.inj hz).symm
    have hs : y.s = x.s := by
      rw [hyz] at hts
      exact Option.some.inj (hts.symm.trans hxts)
    have hyo : y.o = x.o := by
      rw [hs, hxo] at ho
      exact (Option.some.inj ho).symm
    rw [hyz] at hv
    rw [hyo]
    rcases hf (hs ▸ hn) k v hv with hold | ⟨st, hst, hd⟩
    · obtain ⟨st, hst, hd⟩ := h.cache hx (hs ▸ hn) k v hold
      exact ⟨st, hst, hd.extends hext⟩
    · exact ⟨st, hst, hd.extends hext⟩

-- ============================================================== one read

/-- What one read returns and leaves. -/
structure HasRead (E : Engine) (w₀ u : World) (x : Conn) (k : Key)
    (st : Storage) (v : Zval) (u' : World) : Prop where
  reachable : Reachable E u'
  extends' : Extends u u'
  made : Made w₀ u'
  denotes : Denotes u' st v
  held : Held u' x.z.owner v

theorem readMember_cached (hu : Reachable E u) (hm : Made w₀ u) {c : Addr}
    {x : Conn} (hx : u.ready c = some x) (hn : w₀.shared.get x.s = none)
    {k : Key} {st : Storage} (hst : x.o.props.hash.find k = some st)
    {v : Zval} (hv : (u.readSync x).cached k = some v) :
    u.readMember E c k = some (v, u.setLocal c (u.readSync x))
      ∧ HasRead E w₀ u x k st v (u.setLocal c (u.readSync x)) := by
  obtain ⟨hc, hi⟩ := ready_eq_some.mp hx
  have hlocked := readLocked_of_some (E := E) hc hv .r
  have hsub : ∀ k v, (u.readSync x).cached k = some v →
      x.z.loc.cached k = some v := by
    intro k v hv
    rw [cached_readSync] at hv
    exact cached_of_syncLocal hv
  have hext := extends_modify_loc u c fun _ => u.readSync x
  obtain ⟨st', hst', hd⟩ := hm.cache hc hn k v (hsub k v hv)
  rw [hst] at hst'
  cases hst'
  refine ⟨?_, ?_, hext, hm.modify hc _ fun _ k v hv => Or.inl (hsub k v hv),
    hd.extends hext, ?_⟩
  · unfold readMember
    rw [hlocked]
  · have hread : World.step E u (.read c k .r)
        = some (u.setLocal c (u.readSync x)) := by
      show (u.ready c).bind _ = _
      rw [hx, Option.bind_some, hlocked]
      rfl
    exact hu.after hread
  · refine Held.extends hext ?_
    refine ((hu.own x.z.owner).cached (conn_eq_some.mp hc).1 rfl ?_
      (hsub k v hv)).1
    rw [hi]
    exact List.not_mem_nil

theorem readMember_restored (hu : Reachable E u) (hm : Made w₀ u) {c : Addr}
    {x : Conn} (hx : u.ready c = some x) {k : Key} {st : Storage}
    (hst : x.o.props.hash.find k = some st) (hsound : Sound u st)
    (hint : Intact E u x.z.owner st) (hv : (u.readSync x).cached k = none) :
    ∃ v u', u.readMember E c k = some (v, u') ∧ HasRead E w₀ u x k st v u' := by
  obtain ⟨hc, hi⟩ := ready_eq_some.mp hx
  obtain ⟨hz, hts, ho⟩ := conn_eq_some.mp hc
  generalize hl : u.readSync x = l at hv
  have hs₁ := skel_setLocal hu.skel c l
  have hfate := restoreZval_fate (E := E) (t := x.z.owner) hs₁ st
  rw [restoreFate_setLocal, fate_of_intact hint] at hfate
  have hg := restoreZval_grow (E := E) (hs₁.connecting x.z.owner) st
  have hlocked : u.readLocked E c k .r = (Restored.result
      ((u.setLocal c l).restoreZval E x.z.owner st).1,
      ((u.setLocal c l).restoreZval E x.z.owner st).2) := by
    rw [readLocked_of_none hc (hl ▸ hv), hl]
    exact readShared_of_allowed (Or.inl rfl) hst
  rcases hr : (u.setLocal c l).restoreZval E x.z.owner st with ⟨r, u₂⟩
  rw [hr] at hfate hg hlocked
  cases r with
  | failed => cases hfate
  | fault => cases hfate
  | value v =>
      have hsync : ∀ k v, l.cached k = some v →
          x.z.loc.cached k = some v := by
        intro k v hv
        rw [← hl, cached_readSync] at hv
        exact cached_of_syncLocal hv
      have hext₁ : Extends u (u.setLocal c l) :=
        extends_modify_loc u c fun _ => l
      have hext₂ := hext₁.trans hg.extends
      have hext₃ := extends_modify_loc u₂ c fun z =>
        z.loc.updateLocalProperty z.declared k v
      have hd := restoreZval_denotes hs₁ (hsound.setLocal c l) hr
      have hheld : Held u₂ x.z.owner v := by
        refine restoreZval_held hs₁ (fun p b hpb => ?_) hr
        rw [hpb] at hsound
        exact ⟨b, hsound⟩
      have hx₁ : (u.setLocal c l).conn c
          = some ⟨{ x.z with loc := l }, x.s, x.o⟩ := by
        refine conn_eq_some.mpr ⟨?_, hts, ho⟩
        rw [mem_setLocal, if_pos rfl, hz]
        rfl
      obtain ⟨n, hx₂⟩ := hg.conn hx₁
      have hmade₁ : Made w₀ (u.setLocal c l) :=
        hm.modify hc (fun _ => l) fun _ k v hv => Or.inl (hsync k v hv)
      have hmade₂ := (hmade₁.grow hg).modify hx₂
        (fun z => z.loc.updateLocalProperty z.declared k v)
        fun _ k₁ v₁ hv₁ => by
          rw [Local.cached_updateLocalProperty] at hv₁
          split at hv₁
          case isTrue hk₁ =>
            obtain ⟨rfl, -⟩ := hk₁
            cases hv₁
            exact Or.inr ⟨st, hst, hd⟩
          case isFalse => exact Or.inl hv₁
      refine ⟨v, u₂.updateLocalProperty c k v, ?_, ?_, hext₂.trans hext₃,
        hmade₂, hd.extends hext₃, hheld.extends hext₃⟩
      · unfold readMember
        rw [hlocked]
        rfl
      · have hread : World.step E u (.read c k .r)
            = some (u₂.setFrame x.z.owner (.fill c k v)) := by
          show (u.ready c).bind _ = _
          rw [hx, Option.bind_some, hlocked]
          rfl
        have hfinish : World.step E (u₂.setFrame x.z.owner (.fill c k v))
            (.finish x.z.owner) = some (u₂.updateLocalProperty c k v) := by
          show World.finish _ _ = _
          unfold finish
          rw [frame_setFrame]
          show some (((u₂.updateLocalProperty c k v).setFrame _ _).setFrame
            _ _) = _
          rw [setFrame_setFrame, setFrame_idle]
          exact (congrFun hext₂.frame _).trans hi
        exact (hu.after hread).after hfinish

/-- A read of an entry whose storage is still good. -/
theorem readMember_spec (hu : Reachable E u) (hm : Made w₀ u) {c : Addr}
    {x : Conn} (hx : u.ready c = some x) (hn : w₀.shared.get x.s = none)
    {k : Key} {st : Storage} (hst : x.o.props.hash.find k = some st)
    (hsound : Sound u st) (hint : Intact E u x.z.owner st) :
    ∃ v u', u.readMember E c k = some (v, u') ∧ HasRead E w₀ u x k st v u' := by
  cases hv : (u.readSync x).cached k with
  | some v => exact ⟨v, _, readMember_cached hu hm hx hn hst hv⟩
  | none => exact readMember_restored hu hm hx hst hsound hint hv

-- ============================================================ the leaves

theorem SameLeaf.extends {u' : World} (h : Extends u u') {v v' : Zval}
    (hs : SameLeaf w u v v') : SameLeaf w u' v v' := by
  cases v with
  | string p =>
      obtain ⟨s, p', s', hp, hv', hp', hb⟩ := hs
      exact ⟨s, p', s', hp, hv', h.strings hp', hb⟩
  | object a =>
      obtain ⟨b, l, ha, hv', hl⟩ := hs
      exact ⟨b, l, ha, hv', h.birthOf hl⟩
  | _ => exact hs

mutual
/-- What was read stays what it is while more is read. -/
theorem SameRead.extends {u' : World} (h : Extends u u') :
    (v : Php) → ∀ r, SameRead w u v r → SameRead w u' v r
  | .leaf v => by
      intro r hs
      rw [SameRead] at hs ⊢
      obtain ⟨v', hr, hv⟩ := hs
      exact ⟨v', hr, hv.extends h⟩
  | .array es => by
      intro r hs
      rw [SameRead] at hs ⊢
      obtain ⟨rs, hr, hrs⟩ := hs
      exact ⟨rs, hr, SameReadAll.extends h es rs hrs⟩

theorem SameReadAll.extends {u' : World} (h : Extends u u') :
    (es : List (Key × Php)) → ∀ rs, SameReadAll w u es rs →
      SameReadAll w u' es rs
  | [] => by
      intro rs hs
      rw [SameReadAll] at hs ⊢
      exact hs
  | (k, v) :: es => by
      intro rs hs
      rw [SameReadAll] at hs ⊢
      obtain ⟨r, rest, hrs, hr, hrest⟩ := hs
      exact ⟨r, rest, hrs, SameRead.extends h v r hr,
        SameReadAll.extends h es rest hrest⟩
end

/-- A stored leaf can be restored. -/
theorem leaf_good {v : Zval} {st : Storage}
    (hst : w.saveZval t v = some st) (hheld : w.holds E t v = true)
    (hplain : plainLeaf v = true) (hres : resolves E u t' v = true)
    (h : Extends w u) : Sound u st ∧ Intact E u t' st := by
  cases v with
  | string p =>
      obtain ⟨s, hs, rfl⟩ := Option.map_eq_some_iff.mp hst
      change (w.strings.get p).any (fun s => s.owner == t) = true at hheld
      rw [hs] at hheld
      have hown : s.owner = t := beq_iff_eq.mp hheld
      have hu := h.strings hs
      subst hown
      refine ⟨hu, ?_⟩
      show (if (u.strings.get p).isSome then Fate.value else .fault) = .value
      rw [hu]
      rfl
  | object a =>
      obtain ⟨b, hb, rfl⟩ := Option.map_eq_some_iff.mp hst
      exact ⟨fun _ => h.birthOf hb, h.birthOf hb, hres⟩
  | enumCase cls name =>
      cases hst
      exact ⟨trivial, if_pos hres⟩
  | interned b =>
      cases hst
      exact ⟨trivial, rfl⟩
  | null =>
      cases hst
      exact ⟨trivial, rfl⟩
  | bool b =>
      cases hst
      exact ⟨trivial, rfl⟩
  | long n =>
      cases hst
      exact ⟨trivial, rfl⟩
  | double d =>
      cases hst
      exact ⟨trivial, rfl⟩
  | _ => cases hplain

/-- What its storage denotes is what a leaf is. -/
theorem leaf_same {v v' : Zval} {st : Storage}
    (hst : w.saveZval t v = some st) (hplain : plainLeaf v = true)
    (hd : Denotes u st v') : SameLeaf w u v v' := by
  cases v with
  | string p =>
      obtain ⟨s, hs, rfl⟩ := Option.map_eq_some_iff.mp hst
      obtain ⟨p', o, hv', hp'⟩ := hd
      exact ⟨s, p', _, hs, hv', hp', rfl⟩
  | object a =>
      obtain ⟨b, hb, rfl⟩ := Option.map_eq_some_iff.mp hst
      obtain ⟨l, hv', hl⟩ := hd
      exact ⟨b, l, hb, hv', hl⟩
  | null | bool b | long n | double d | interned b | enumCase cls name =>
      cases hst
      exact hd
  | _ => cases hplain

/-- An object that was there before is no array that was read. -/
theorem readElement_leaf (hnum : Numbered w) {v v' : Zval}
    (hs : SameLeaf w u v v') (hplain : plainLeaf v = true)
    (recurse : World → Addr → Option (List (Key × Php) × World)) :
    readElement w.births recurse u v' = some (.leaf v', u) := by
  cases v with
  | object a =>
      obtain ⟨b, l, ha, rfl, hl⟩ := hs
      have hlt := NamesBelow.birthOf_lt hnum ha
      show (if u.madeSince w.births l then _ else _) = _
      rw [if_neg]
      unfold madeSince
      rw [hl]
      show ¬ decide (w.births ≤ b) = true
      rw [decide_eq_true_iff]
      omega
  | string p =>
      obtain ⟨s, p', s', -, rfl, -, -⟩ := hs
      rfl
  | null | bool b | long n | double d | interned b | enumCase cls name =>
      cases hs
      rfl
  | _ => cases hplain

-- ========================================================== reading back

/-- Thread `t'` reads what `w₁` has. -/
structure Reads (E : Engine) (w₀ w₁ : World) (t' : ThreadId) (u : World) :
    Prop where
  reachable : Reachable E u
  extends' : Extends w₁ u
  made : Made w₀ u
  idle : u.frame t' = .idle

theorem Reads.next {w₁ u' : World} (h : Reads E w₀ w₁ t' u) {x : Conn}
    {k : Key} {st : Storage} {v : Zval} (hr : HasRead E w₀ u x k st v u') :
    Reads E w₀ w₁ t' u' where
  reachable := hr.reachable
  extends' := h.extends'.trans hr.extends'
  made := hr.made
  idle := (congrFun hr.extends'.frame t').trans h.idle

/-- What `fromArray` is given on thread `t`, read on thread `t'`. -/
def readable (E : Engine) (w : World) (t t' : ThreadId) (v : Zval) : Bool :=
  plainLeaf v && w.holds E t v && resolves E w t' v

/-- What a thread can resolve stays so. -/
theorem resolves_mono {s : TsAddr} (hw : Reachable E w) (hin : Inside w s w')
    (hu : Reachable E u) (h : Extends w' u) {v : Zval}
    (hheld : w.holds E t v = true) (hres : resolves E w t' v = true) :
    resolves E u t' v = true := by
  cases v with
  | object a =>
      obtain ⟨x, hx, -⟩ := holds_object hheld
      refine connectable_mono hw.skel hu.skel (fun hz => ?_)
        (fun hb => h.birthOf (hin.birthOf hb)) (birthOf_conn hx) hres
      obtain ⟨l, hl⟩ := hin.mem hz
      obtain ⟨l', hl'⟩ := h.mem hl
      exact ⟨l', hl'⟩
  | _ => exact hres

/-- The connection that an object of a known ts_obj is. -/
theorem conn_of_birth (hnum : Numbered u) {l : Addr} {s : TsAddr} {o : TsObj}
    (ho : u.shared.get s = some o) (hl : u.birthOf l = some o.birth) :
    ∃ z, u.conn l = some ⟨z, s, o⟩ := by
  obtain ⟨o', ho', hb⟩ := Option.map_eq_some_iff.mp hl
  obtain ⟨s', hts, ho'⟩ := Option.bind_eq_some_iff.mp ho'
  have hss := (hnum s o ho).2 s' o' ho' hb
  subst hss
  obtain ⟨z, hz, hzs⟩ := Option.bind_eq_some_iff.mp hts
  exact ⟨z, conn_eq_some.mpr ⟨hz, hzs, ho⟩⟩

section ReadBack

variable {w₁ : World} {s₀ : TsAddr}

mutual
/-- One entry is read, and read back if it is an array. -/
theorem readElement_spec (hw : Reachable E w) (hin : Inside w s₀ w₁)
    (hcls : ∀ b, w.births ≤ b → E.initializes t' b = true) :
    (v : Php) → v.all (readable E w t t') = true → v.Sound → ∀ st,
      StandsFor w₁ t (fun s => w.shared.get s = none) v st →
      ∃ n, ∀ m, n ≤ m → ∀ (u : World) (c : Addr) (x : Conn) (k : Key),
        Reads E w w₁ t' u → u.conn c = some x → x.z.owner = t' →
        w.shared.get x.s = none → x.o.props.hash.find k = some st →
        ∃ r p u', u.readMember E c k = some r
          ∧ readElement w.births (readBack E w.births m) r.2 r.1
            = some (p, u')
          ∧ Reads E w w₁ t' u' ∧ Extends u u' ∧ SameRead w u' v p
  | .leaf v => by
      intro hall _ st hst
      rw [Php.all, readable, Bool.and_eq_true, Bool.and_eq_true] at hall
      obtain ⟨⟨hplain, hheld⟩, hres⟩ := hall
      rw [StandsFor] at hst
      have hst₀ : w.saveZval t v = some st := by
        rw [← hin.saveZval hheld]
        exact hst
      refine ⟨0, fun m _ u c x k hu hx hown hn hk => ?_⟩
      obtain ⟨hsound, hint⟩ := leaf_good hst (hin.holds hheld) hplain
        (resolves_mono hw hin hu.reachable hu.extends' hheld hres)
        hu.extends'
      obtain ⟨v', u', hread, hr⟩ := readMember_spec hu.reachable hu.made
        (ready_eq_some.mpr ⟨hx, hown ▸ hu.idle⟩) hn hk hsound (hown ▸ hint)
      have hsame := leaf_same hst₀ hplain hr.denotes
      refine ⟨(v', u'), .leaf v', u', hread,
        readElement_leaf hw.numbered hsame hplain _, hu.next hr, hr.extends',
        ?_⟩
      rw [SameRead]
      exact ⟨v', rfl, hsame⟩
  | .array es => by
      intro hall hsound st hst
      rw [Php.all] at hall
      rw [Php.Sound] at hsound
      rw [StandsFor] at hst
      obtain ⟨a, s, o, rfl, hts, hnew, hos, htable⟩ := hst
      obtain ⟨n, hn⟩ := readEntries_spec hw hin hcls es hall hsound.1.1
        hsound.2 _ htable
      refine ⟨n + 1, fun m hm u c x k hu hx hown hxn hk => ?_⟩
      obtain ⟨m, rfl⟩ : ∃ m', m = m' + 1 := ⟨m - 1, by omega⟩
      have hbirth : u.birthOf a = some o.birth := by
        refine hu.extends'.birthOf ?_
        unfold birthOf
        rw [hts, Option.bind_some, hos]
        rfl
      obtain ⟨n', hos'⟩ := hu.extends'.shared hos
      have hmade := hu.made.born hos' hnew
      have hcan : u.connectable E x.z.owner a = true := by
        unfold connectable initializes
        rw [hbirth, hown]
        exact Bool.or_eq_true_iff.mpr (Or.inr (hcls _ hmade))
      obtain ⟨v', u', hread, hr⟩ := readMember_spec hu.reachable hu.made
        (ready_eq_some.mpr ⟨hx, hown ▸ hu.idle⟩) hxn hk (fun _ => hbirth)
        ⟨hbirth, hcan⟩
      obtain ⟨l, rfl, hl⟩ := hr.denotes
      have hu' := hu.next hr
      -- the object is a connection to the ts_obj that keeps the array
      obtain ⟨n', hos'⟩ := hu'.extends'.shared hos
      obtain ⟨z, hconn⟩ := conn_of_birth hu'.reachable.numbered hos' hl
      have hzown : z.owner = t' := by
        obtain ⟨z', hz', ho'⟩ := hr.held
        rw [(conn_eq_some.mp hconn).1] at hz'
        cases hz'
        exact ho'.trans hown
      obtain ⟨rs, u'', hrs, hu'', hext, hsame⟩ := hn m (by omega) u' l _ hu'
        hconn hzown hnew fun e he => HashTable.find_eq_some_iff.mpr he
      refine ⟨(.object l, u'), .array rs, u'', hread, ?_, hu'',
        hr.extends'.trans hext, ?_⟩
      · show (if u'.madeSince w.births l then _ else _) = _
        have hmade : u'.madeSince w.births l = true := by
          unfold madeSince
          rw [hl]
          have hborn := hr.made.born hos' hnew
          exact decide_eq_true hborn
        rw [if_pos hmade, readBack, hconn, Option.bind_some, hrs]
        rfl
      · rw [SameRead]
        exact ⟨rs, rfl, hsame⟩

theorem readEntries_spec (hw : Reachable E w) (hin : Inside w s₀ w₁)
    (hcls : ∀ b, w.births ≤ b → E.initializes t' b = true) :
    (es : List (Key × Php)) → Php.allEntries (readable E w t t') es = true →
      (∀ k ∈ es.map Prod.fst, coerceKey k = k) → Php.SoundEntries es → ∀ sts,
      StandForAll w₁ t (fun s => w.shared.get s = none) es sts →
      ∃ n, ∀ m, n ≤ m → ∀ (u : World) (c : Addr) (x : Conn),
        Reads E w w₁ t' u → u.conn c = some x → x.z.owner = t' →
        w.shared.get x.s = none →
        (∀ e ∈ sts, x.o.props.hash.find e.1 = some e.2) →
        ∃ rs u', readEntries E (readElement w.births (readBack E w.births m)) c
            (sts.map Prod.fst) u = some (rs, u')
          ∧ Reads E w w₁ t' u' ∧ Extends u u' ∧ SameReadAll w u' es rs
  | [] => by
      intro _ _ _ sts hsts
      rw [StandForAll] at hsts
      subst hsts
      refine ⟨0, fun m _ u c x hu _ _ _ _ => ⟨[], u, rfl, hu, .refl u, ?_⟩⟩
      rw [SameReadAll]
  | (k, v) :: es => by
      intro hall hcanon hsound sts hsts
      rw [Php.allEntries, Bool.and_eq_true] at hall
      rw [Php.SoundEntries] at hsound
      rw [StandForAll] at hsts
      obtain ⟨st, rest, rfl, hst, hrest⟩ := hsts
      rw [hcanon k List.mem_cons_self]
      obtain ⟨n₁, hn₁⟩ := readElement_spec hw hin hcls v hall.1 hsound.1 st hst
      obtain ⟨n₂, hn₂⟩ := readEntries_spec hw hin hcls es hall.2
        (fun k' hk' => hcanon k' (List.mem_cons_of_mem _ hk')) hsound.2 rest
        hrest
      refine ⟨max n₁ n₂, fun m hm u c x hu hx hown hn hfind => ?_⟩
      obtain ⟨r, p, u₁, hread, helem, hu₁, hext₁, hsame⟩ := hn₁ m (by omega) u
        c x k hu hx hown hn (hfind (k, st) List.mem_cons_self)
      obtain ⟨l, n, hx₁⟩ := hext₁.conn hx
      obtain ⟨rs, u₂, hrs, hu₂, hext₂, hsames⟩ := hn₂ m (by omega) u₁ c _ hu₁
        hx₁ hown hn fun e he => hfind e (List.mem_cons_of_mem _ he)
      refine ⟨(k, p) :: rs, u₂, ?_, hu₂, hext₁.trans hext₂, ?_⟩
      · rw [List.map_cons, readEntries, hread, Option.bind_some, helem,
          Option.bind_some, hrs]
        rfl
      · rw [SameReadAll]
        exact ⟨p, rs, rfl, SameRead.extends hext₂ v p hsame, hsames⟩
end

end ReadBack

-- ============================================================ fromArray

theorem savable_of_readable {v : Zval}
    (h : readable E w t t' v = true) : w.savable t v = true := by
  rw [readable, Bool.and_eq_true, Bool.and_eq_true] at h
  obtain ⟨⟨hplain, hheld⟩, -⟩ := h
  cases v with
  | string p =>
      change (w.strings.get p).any (fun s => s.owner == t) = true at hheld
      cases hs : w.strings.get p with
      | none =>
          rw [hs] at hheld
          cases hheld
      | some s =>
          rw [savable, saveZval, hs]
          rfl
  | object a =>
      obtain ⟨x, hx, -⟩ := holds_object hheld
      rw [savable, saveZval, birthOf_conn hx]
      rfl
  | null | bool b | long n | double d | interned b | enumCase cls name => rfl
  | _ => cases hplain

mutual
theorem Php.all_mono {p q : Zval → Bool} (h : ∀ v, p v = true → q v = true) :
    (v : Php) → v.all p = true → v.all q = true
  | .leaf v => by
      intro hv
      rw [Php.all] at hv ⊢
      exact h v hv
  | .array es => by
      intro hv
      rw [Php.all] at hv ⊢
      exact Php.allEntries_mono h es hv

theorem Php.allEntries_mono {p q : Zval → Bool}
    (h : ∀ v, p v = true → q v = true) :
    (es : List (Key × Php)) → Php.allEntries p es = true →
      Php.allEntries q es = true
  | [] => fun hv => hv
  | (k, v) :: es => by
      intro hv
      rw [Php.allEntries, Bool.and_eq_true] at hv ⊢
      exact ⟨Php.all_mono h v hv.1, Php.allEntries_mono h es hv.2⟩
end

/-- What `fromArray` leaves is an object whose table keeps the array. -/
theorem fromArray_spec (hw : Reachable E w) (hi : w.frame t = .idle)
    {es : List (Key × Php)} (hes : (Php.array es).Sound)
    (hheld : Php.allEntries (w.holds E t) es = true)
    (hsav : Php.allEntries (w.savable t) es = true) :
    ∃ a o x, w.fromArray E t es = some (a, o) ∧ o.raised = false
      ∧ Reachable E o.world ∧ o.world.frame = w.frame ∧ Made w o.world
      ∧ Inside w x.s o.world ∧ w.shared.get x.s = none
      ∧ o.world.conn a = some x
      ∧ StandForAll o.world t (fun s => w.shared.get s = none) es
        x.o.props.hash.entries := by
  rw [Php.Sound] at hes
  obtain ⟨hcanon, hsound⟩ := hes
  have hcon := hw.skel.connecting t
  obtain ⟨w₁, hnew, hconn₁, hin₁⟩ := newArray_spec (E := E) hcon
  obtain ⟨hw₁, hf₁⟩ := newArray_reachable hw hi hnew
  have hfresh : w.shared.get (w.shared.next E.shared) = none :=
    w.shared.get_next E.shared
  have hin := hin₁ (w.shared.next E.shared)
  have hheld₁ := Inside.allEntries_holds E hin es hheld
  obtain ⟨o, hmerge, hm⟩ := mergeTable_spec E t es w₁
    (w.mem.next E.object) (newConn E w t) hconn₁ rfl
    (hin.connecting ▸ hcon) hheld₁
  have hran := mergeTable_ran E t w es w₁ (w.mem.next E.object)
    (newConn E w t) hw₁ (by rw [hf₁]; exact hi)
    ((Made.refl w).newArray hw.skel hnew) hconn₁ rfl hheld₁ hsound
    (fun _ => ⟨nodup_coerced hcanon, fun e _ hmem => by cases hmem⟩) o hmerge
  have hthrew : o.threw = false := by
    rw [hm.threw, Inside.allEntries_savable E hin es hheld, hsav]
    rfl
  obtain ⟨l, p, hconn, hkeeps⟩ := hm.conn
  obtain ⟨sts, hsts, hall⟩ := hkeeps hthrew hsound (nodup_coerced hcanon)
    fun e _ hmem => by cases hmem
  refine ⟨w.mem.next E.object, o, _, ?_, ?_, hran.reachable,
    hran.frame.trans hf₁, hran.made, hin.trans hm.within, hfresh, hconn, ?_⟩
  · unfold fromArray
    rw [hnew, Option.bind_some]
    show (mergeTable E t true true es w₁ _).map _ = _
    rw [hmerge]
    rfl
  · rw [Ending.raised, hm.ok, hthrew]
    rfl
  · rw [show ({ (newConn E w t).o with props := p } : TsObj).props.hash.entries
      = sts from hsts]
    refine StandForAll.mono (.refl o.world (w.shared.next E.shared))
      (fun hs => ?_) (fun _ hs => hin.shared_none hs) es sts hall
    have hlive := (conn_eq_some.mp hconn₁).2.2
    change w₁.shared.get (w.shared.next E.shared) = _ at hlive
    rw [hs] at hlive
    cases hlive

/-- An idle thread that connects to an object has a connection to its
ts_obj. -/
theorem connect_reads (hw : Reachable E w') (hmade : Made w w')
    (hidle : w'.frame t' = .idle) {a : Addr} {x : Conn}
    (hx : w'.conn a = some x)
    (hinit : E.initializes t' x.o.birth = true) :
    ∃ l u z n, w'.objectConnect E t' a = (.ok l, u) ∧ Reads E w w' t' u
      ∧ u.conn l = some ⟨z, x.s, { x.o with refcount := n }⟩
      ∧ z.owner = t' := by
  have hcan : w'.connectable E t' a = true := by
    unfold connectable initializes
    rw [birthOf_conn hx]
    exact Bool.or_eq_true_iff.mpr (Or.inr hinit)
  obtain ⟨l, hl, hbirth⟩ :=
    objectConnect_birth hw.skel (birthOf_conn hx) hcan
  rcases hc : w'.objectConnect E t' a with ⟨r, u⟩
  rw [hc] at hl hbirth
  cases hl
  have hg := objectConnect_grow (E := E) (hw.skel.connecting t') a
  rw [hc] at hg
  have hconnect : World.step E w' (.connect t' a) = some u := by
    show (if _ then _ else _) = _
    rw [hidle, if_pos (show Frame.isIdle .idle = true from rfl), hc]
  have hu : Reads E w w' t' u :=
    ⟨hw.after hconnect, hg.extends, hmade.grow hg,
      (congrFun hg.extends.frame t').trans hidle⟩
  obtain ⟨n, hos⟩ := hg.extends.shared (conn_eq_some.mp hx).2.2
  obtain ⟨z, hz⟩ := conn_of_birth hu.reachable.numbered hos hbirth
  obtain ⟨z', hz', ho'⟩ := objectConnect_held hw.skel hc
  rw [(conn_eq_some.mp hz).1] at hz'
  cases hz'
  exact ⟨l, u, z, n, rfl, hu, hz, ho'⟩

/-- `fromArray` keeps an array with leaves that can be stored, and every
thread that has its enum cases and can connect to its objects reads it
back: the same keys in the same order and the same leaves, at every
depth. -/
theorem fromArray_faithful (E : Engine) (w : World) (hw : Reachable E w)
    (t t' : ThreadId) (hi : w.frame t = .idle) (hi' : w.frame t' = .idle)
    (hcls : ∀ b, w.births ≤ b → E.initializes t' b = true)
    (es : List (Key × Php)) (hes : (Php.array es).Sound)
    (hread : Php.allEntries (readable E w t t') es = true) :
    FromArrayFaithful E w t es t' := by
  have hheld : Php.allEntries (w.holds E t) es = true := by
    refine Php.allEntries_mono (fun v hv => ?_) es hread
    rw [readable, Bool.and_eq_true, Bool.and_eq_true] at hv
    exact hv.1.2
  have hsav := Php.allEntries_mono (fun v => savable_of_readable) es hread
  obtain ⟨a, o, x, hfrom, hraised, hreach, hframe, hmade, hin, hfresh, hconn,
    hstand⟩ := fromArray_spec hw hi hes hheld hsav
  obtain ⟨l, u, z, n, hc, hu, hz, hown⟩ := connect_reads hreach hmade
    ((congrFun hframe t').trans hi') hconn
    (hcls _ (hmade.born (conn_eq_some.mp hconn).2.2 hfresh))
  rw [Php.Sound] at hes
  obtain ⟨fuel, hfuel⟩ := readEntries_spec hw hin hcls es hread hes.1.1
    hes.2 _ hstand
  obtain ⟨rs, u', hrs, -, -, hsame⟩ := hfuel fuel (Nat.le_refl fuel) u l _ hu
    hz hown hfresh fun e he => HashTable.find_eq_some_iff.mpr he
  refine ⟨a, o, hfrom, hraised, l, u, hc, fuel + 1, rs, u', ?_, hsame⟩
  rw [readBack, hz, Option.bind_some]
  exact hrs

/-- `ThreadSafeArray::fromArray([1, "a" => ["b" => "x"]])` -/
theorem fromArray_faithful_nested :
    FromArrayFaithful (demoEngine .bump) init 1
      [(.long 0, .leaf (.long 1)),
        (.str [97], .array [(.str [98], .leaf (.interned [120]))])] 2 := by
  refine fromArray_faithful (demoEngine .bump) init ⟨[], rfl⟩ 1 2 rfl rfl
    (fun _ _ => rfl) _ ?_ rfl
  rw [Php.Sound]
  refine ⟨by decide, trivial, ?_, trivial⟩
  rw [Php.Sound]
  exact ⟨by decide, trivial, trivial⟩

/-- An enum that only thread 1 has loaded. -/
def enumOnOne : Engine :=
  { demoEngine .bump with enumResolves := fun t _ _ => t == 1 }

/-- `ThreadSafeArray::fromArray([Suit::Hearts])` succeeds, but thread 2
cannot read it back. -/
theorem fromArray_unknown_enum :
    (Php.array [(.long 0, .leaf (.enumCase [83] [72]))]).Sound
      ∧ Php.allEntries (fun v => plainLeaf v && init.holds enumOnOne 1 v)
          [(.long 0, .leaf (.enumCase [83] [72]))] = true
      ∧ (init.fromArray enumOnOne 1
          [(.long 0, .leaf (.enumCase [83] [72]))]).map
          (fun r => r.2.raised) = some false
      ∧ ¬ FromArrayFaithful enumOnOne init 1
          [(.long 0, .leaf (.enumCase [83] [72]))] 2 := by
  refine ⟨?_, rfl, by decide, ?_⟩
  · rw [Php.Sound]
    exact ⟨by decide, trivial, trivial⟩
  rintro ⟨a, o, ho, -, l, w₁, hc, fuel, rs, u, hrs, -⟩
  have hview : (init.fromArray enumOnOne 1
      [(.long 0, .leaf (.enumCase [83] [72]))]).map (fun r =>
        (r.2.world.objectConnect enumOnOne 2 r.1).1) = some (.ok 2) := by
    decide
  have hkeys : (init.fromArray enumOnOne 1
      [(.long 0, .leaf (.enumCase [83] [72]))]).map (fun r =>
        ((r.2.world.objectConnect enumOnOne 2 r.1).2.conn 2).map fun x =>
          x.o.props.hash.entries.map Prod.fst) = some (some [.long 0]) := by
    decide
  have hread : (init.fromArray enumOnOne 1
      [(.long 0, .leaf (.enumCase [83] [72]))]).map (fun r =>
        ((r.2.world.objectConnect enumOnOne 2 r.1).2.readMember enumOnOne 2
          (.long 0)).isSome) = some false := by
    decide
  rw [ho, Option.map_some, hc] at hview hkeys hread
  cases hview
  obtain ⟨x, hx, hx'⟩ := Option.map_eq_some_iff.mp (Option.some.inj hkeys)
  have hnone : w₁.readMember enumOnOne 2 (.long 0) = none := by
    rw [← Option.not_isSome_iff_eq_none, Option.some.inj hread]
    exact Bool.false_ne_true
  cases fuel with
  | zero => cases hrs
  | succ n =>
      rw [readBack, hx, Option.bind_some, hx', readEntries, hnone] at hrs
      cases hrs

end PmmpThread.Model.World
