/-
A write with arrays in it as a run of steps, and what is cached after it.

Every ThreadSafeArray that is made on the way is allocated, constructed
and written by the steps of the thread, so the world after a merge is a
reachable one (`storeWrite_ran`, `mergeTable_ran`). A new ThreadSafeArray
is written under fresh keys only, so what its connection has cached is what
its table denotes (`Made`).
-/
import PmmpThread.Proofs.Merge
import PmmpThread.Proofs.Coherence

namespace PmmpThread.Model.World

open Zend

variable {E : Engine} {t : ThreadId} {w w₀ w' : World}

theorem setFrame_idle (h : w.frame t = .idle) : w.setFrame t .idle = w := by
  unfold setFrame
  rw [← h, Function.update_eq_self]

-- ======================================================== the single steps

theorem baseCtor_setFrame (f : Frame) {a : Addr}
    (hc : w.connecting t = none) :
    (w.setFrame t f).baseCtor E t a .threaded []
      = (w.baseCtor E t a .threaded []).map (·.setFrame t f) := by
  have hc' : (w.setFrame t f).connecting t = none := hc
  unfold baseCtor
  rw [hc, hc']
  refine congrArg some ?_
  show registerObject ((w.tsObjectCtor E t a .threaded).setFrame t f) t a
    = (registerObject (w.tsObjectCtor E t a .threaded) t a).setFrame t f
  unfold registerObject
  rw [show ((w.tsObjectCtor E t a .threaded).setFrame t f).tsOf a
    = (w.tsObjectCtor E t a .threaded).tsOf a from rfl]
  cases (w.tsObjectCtor E t a .threaded).tsOf a <;> rfl

/-- A new ThreadSafeArray is made by two steps. -/
theorem newArray_reachable (hw : Reachable E w) (hi : w.frame t = .idle)
    {a : Addr} (h : w.newArray E t = some (a, w')) :
    Reachable E w' ∧ w'.frame = w.frame := by
  have hc := hw.skel.connecting t
  obtain ⟨r, hr, heq⟩ := Option.map_eq_some_iff.mp h
  obtain ⟨rfl, rfl⟩ := Prod.mk.inj heq
  have hframe : r.frame = w.frame := by
    unfold baseCtor at hr
    rw [show (w.objectAlloc E t []).2.connecting t = none from hc] at hr
    rw [← Option.some.inj hr]
    unfold registerObject
    split <;> rfl
  have halloc : World.step E w (.alloc t [] .threaded [])
      = some ((w.objectAlloc E t []).2.setFrame t
        (.allocated (w.objectAlloc E t []).1 .threaded [])) := by
    show (if _ then _ else _) = _
    rw [if_pos]
    rw [hi]
    rfl
  have hctor : World.step E ((w.objectAlloc E t []).2.setFrame t
      (.allocated (w.objectAlloc E t []).1 .threaded [])) (.ctor t)
        = some r := by
    simp only [World.step, frame_setFrame]
    rw [baseCtor_setFrame _
      (show (w.objectAlloc E t []).2.connecting t = none from hc), hr]
    show some ((r.setFrame t _).setFrame t .idle) = _
    rw [setFrame_setFrame, setFrame_idle]
    rw [hframe]
    exact hi
  exact ⟨(hw.after halloc).after hctor, hframe⟩

/-- A write is two steps. -/
theorem write_reachable (hw : Reachable E w) {c : Addr} {x : Conn}
    (hx : w.ready c = some x) {key : Option Key} {v : Zval}
    (hv : w.holds E x.z.owner v = true) (h : w.write c key v = some w') :
    Reachable E w' ∧ w'.frame = w.frame := by
  obtain ⟨r, hr, rfl⟩ := Option.map_eq_some_iff.mp h
  have hi := (ready_eq_some.mp hx).2
  have hframe : r.2.frame = w.frame := by
    rw [writeLocked_eq (ready_eq_some.mp hx).1] at hr
    obtain ⟨st, -, rfl⟩ := Option.map_eq_some_iff.mp hr
    rfl
  have hwrite : World.step E w (.write c key v)
      = some (r.2.setFrame x.z.owner (.fill c r.1 v)) := by
    show (w.ready c).bind _ = _
    rw [hx, Option.bind_some, if_pos hv, hr]
    rfl
  have hfinish : World.step E (r.2.setFrame x.z.owner (.fill c r.1 v))
      (.finish x.z.owner) = some (r.2.updateLocalProperty c r.1 v) := by
    show World.finish _ _ = _
    unfold finish
    rw [frame_setFrame]
    show some (((r.2.updateLocalProperty c r.1 v).setFrame _ _).setFrame _ _)
      = _
    rw [setFrame_setFrame, setFrame_idle]
    exact (congrFun hframe _).trans hi
  exact ⟨(hw.after hwrite).after hfinish, hframe⟩

-- ===================================================== what is cached

/-- The connection has cached only what the shared table denotes. -/
def TrueCache (w : World) (x : Conn) : Prop :=
  ∀ k v, x.z.loc.cached k = some v →
    ∃ st, x.o.props.hash.find k = some st ∧ Denotes w st v

/-- The ts_objs in `w` that were not there in `w₀`: they are newer, and
nothing false is cached of them. -/
structure Made (w₀ w : World) : Prop where
  born : ∀ {s o}, w.shared.get s = some o → w₀.shared.get s = none →
    w₀.births ≤ o.birth
  cache : ∀ {c x}, w.conn c = some x → w₀.shared.get x.s = none →
    TrueCache w x
  births : w₀.births ≤ w.births

theorem Made.refl (w : World) : Made w w where
  born ho hn := by
    rw [hn] at ho
    cases ho
  cache hx hn := by
    rw [(conn_eq_some.mp hx).2.2] at hn
    cases hn
  births := Nat.le_refl _

theorem Inside.denotes {s : TsAddr} (h : Inside w s w') {st : Storage}
    {v : Zval} (hd : Denotes w st v) : Denotes w' st v :=
  hd.mono (fun _ _ _ hp => by rw [h.strings]; exact hp)
    (closuresStay_of_append (h.closures ▸ List.prefix_rfl))
    fun _ _ _ hb => h.birthOf hb

/-- A value denotes what it is saved as. -/
theorem denotes_saved {v : Zval} {st : Storage}
    (h : w.saveZval t v = some st) : Denotes w st v := by
  cases v with
  | string p =>
      obtain ⟨s, hs, rfl⟩ := Option.map_eq_some_iff.mp h
      exact ⟨p, s.owner, rfl, hs⟩
  | closure p =>
      obtain ⟨cl, hcl, h⟩ := Option.bind_eq_some_iff.mp h
      split at h
      · cases h
        exact ⟨p, cl, cl, rfl, hcl, hcl, rfl⟩
      · cases h
  | object a =>
      obtain ⟨b, hb, rfl⟩ := Option.map_eq_some_iff.mp h
      exact ⟨a, rfl, hb⟩
  | socket s =>
      cases h
      exact ⟨s, rfl, rfl⟩
  | undef => cases h
  | other => cases h
  | indirect => cases h
  | _ =>
      cases h
      rfl

theorem Made.newArray (hs : Skel w) (h : Made w₀ w) {a : Addr}
    (hnew : w.newArray E t = some (a, w')) : Made w₀ w' := by
  obtain ⟨u, hu, hmem, hshared, hstr, hcl, -, hb⟩ :=
    newArray_eq (E := E) (hs.connecting t)
  obtain ⟨u', hu', -, hin⟩ := newArray_spec (E := E) (hs.connecting t)
  rw [hu] at hu' hnew
  cases hu'
  cases hnew
  refine ⟨fun {s o} ho hn => ?_, fun {c x} hx hn => ?_, ?_⟩
  · rw [hshared] at ho
    split at ho
    · rw [← Option.some.inj ho]
      exact h.births
    · exact h.born ho hn
  · obtain ⟨hz, hts, ho⟩ := conn_eq_some.mp hx
    rw [hmem] at hz
    split at hz
    · intro k v hv
      rw [← Option.some.inj hz] at hv
      cases hv
    · obtain ⟨o', ho'⟩ := hs.tsLive hz hts
      rw [hshared, if_neg (Heap.ne_next_of_get ho')] at ho
      intro k v hv
      obtain ⟨st, hst, hd⟩ := h.cache (conn_eq_some.mpr ⟨hz, hts, ho⟩) hn k v hv
      exact ⟨st, hst, (hin x.s).denotes hd⟩
  · have := h.births
    omega

/-- What a write leaves cached, at any connection. -/
theorem cached_after_write {c d : Addr} {x : Conn} (hx : w.conn c = some x)
    {r : Local × Store Storage} {k : Key} {v : Zval}
    (hr : ∀ k₁ v₁, r.1.cached k₁ = some v₁ → x.z.loc.cached k₁ = some v₁)
    {z : ZObj}
    (hd : ((w.commit c x.s r).updateLocalProperty c k v).mem.get d = some z) :
    ∃ z₀, w.mem.get d = some z₀ ∧ z.tsObj = z₀.tsObj
      ∧ ∀ k₁ v₁, z.loc.cached k₁ = some v₁ →
        z₀.loc.cached k₁ = some v₁ ∨ d = c ∧ k₁ = k ∧ v₁ = v := by
  obtain ⟨hz, -, -⟩ := conn_eq_some.mp hx
  change (Heap.modify _ _ _).get d = _ at hd
  rw [Heap.get_modify, mem_commit] at hd
  split at hd
  case isFalse => exact ⟨z, hd, rfl, fun _ _ hv => Or.inl hv⟩
  case isTrue heq =>
    rw [heq, hz] at hd
    cases hd
    refine ⟨x.z, heq ▸ hz, rfl, fun k₁ v₁ hv => ?_⟩
    change (r.1.updateLocalProperty _ _ _).cached k₁ = _ at hv
    rw [Local.cached_updateLocalProperty] at hv
    split at hv
    case isTrue hk₁ =>
      exact Or.inr ⟨heq, hk₁.1, (Option.some.inj hv).symm⟩
    case isFalse => exact Or.inl (hr k₁ v₁ hv)

/-- One write of a saved value under a fresh key. -/
theorem Made.writeMember (h : Made w₀ w) {c : Addr} {x : Conn}
    (hx : w.conn c = some x) {k : Key}
    (hk : w₀.shared.get x.s = none →
      x.o.props.hash.find (coerceKey k) = none)
    {v : Zval} {st : Storage} (hst : w.saveZval x.z.owner v = some st)
    {threw : Bool} {o : Ending}
    (ho : w.writeMember c (some k) v threw = o) : Made w₀ o.world := by
  obtain ⟨u, l, p, hu, hin, -, -⟩ := writeMember_spec hx (some k) hst threw
  obtain ⟨hz, hts, hos⟩ := conn_eq_some.mp hx
  generalize hr : w.writeStore x.z.owner x.z.loc x.o.props
    (some (coerceKey k)) st = r
  have hworld : u = (w.commit c x.s r.2).updateLocalProperty c
      (coerceKey k) v := by
    have hwrite := write_eq hx (some (coerceKey k)) hst
    rw [hr] at hwrite
    unfold World.writeMember at hu
    rw [Option.map_some, hwrite] at hu
    exact (congrArg Ending.world hu).symm
  rw [hu] at ho
  subst ho
  have hshared : ∀ s', u.shared.get s' = if s' = x.s then
      (w.shared.get s').map fun o => { o with props := r.2.2 }
      else w.shared.get s' := by
    intro s'
    rw [hworld]
    exact shared_commit w c x.s s' r.2
  refine ⟨fun {s' o'} ho' hn => ?_, fun {d y} hy hn => ?_,
    Nat.le_trans h.births hin.births⟩
  · rw [hshared] at ho'
    split at ho'
    · obtain ⟨o₀, ho₀, rfl⟩ := Option.map_eq_some_iff.mp ho'
      have hborn := h.born ho₀ hn
      exact hborn
    · exact h.born ho' hn
  · obtain ⟨hyz, hyts, hyo⟩ := conn_eq_some.mp hy
    rw [hworld] at hyz
    obtain ⟨z₀, hz₀, htsz, hcached⟩ := cached_after_write hx
      (fun k₁ v₁ hv => by
        rw [← hr] at hv
        exact cached_writeStore hv) hyz
    rw [hshared] at hyo
    intro k₁ v₁ hv
    rcases hcached k₁ v₁ hv with hold | ⟨rfl, rfl, rfl⟩
    · split at hyo
      case isTrue heq =>
        obtain ⟨o₀, ho₀, hprops⟩ := Option.map_eq_some_iff.mp hyo
        obtain ⟨st₁, hst₁, hd⟩ := h.cache (x := ⟨z₀, y.s, o₀⟩)
          (conn_eq_some.mpr ⟨hz₀, htsz ▸ hyts, ho₀⟩) hn k₁ v₁ hold
        refine ⟨st₁, ?_, hin.denotes hd⟩
        rw [heq, hos] at ho₀
        cases ho₀
        rw [← hprops]
        show r.2.2.hash.find k₁ = _
        rw [← hr, find_writeStore, if_neg]
        · exact hst₁
        · rintro rfl
          have hnone := hk (heq ▸ hn)
          change x.o.props.hash.find (coerceKey k) = some st₁ at hst₁
          rw [hnone] at hst₁
          cases hst₁
      case isFalse =>
        obtain ⟨st₁, hst₁, hd⟩ := h.cache (x := ⟨z₀, y.s, y.o⟩)
          (conn_eq_some.mpr ⟨hz₀, htsz ▸ hyts, hyo⟩) hn k₁ v₁ hold
        exact ⟨st₁, hst₁, hin.denotes hd⟩
    · rw [hz] at hz₀
      cases hz₀
      have heq : y.s = x.s := by
        rw [htsz, hts] at hyts
        exact (Option.some.inj hyts).symm
      rw [if_pos heq] at hyo
      obtain ⟨o₀, ho₀, hprops⟩ := Option.map_eq_some_iff.mp hyo
      refine ⟨st, ?_, hin.denotes (denotes_saved hst)⟩
      rw [← hprops]
      show r.2.2.hash.find _ = _
      rw [← hr, find_writeStore]
      exact if_pos rfl

-- ============================================================== the writes

theorem writeMember_reachable (hw : Reachable E w) {c : Addr} {x : Conn}
    (hx : w.ready c = some x) (key : Option Key) {v : Zval}
    (hv : w.holds E x.z.owner v = true) (threw : Bool) :
    Reachable E (w.writeMember c key v threw).world
      ∧ (w.writeMember c key v threw).world.frame = w.frame := by
  unfold writeMember
  cases hwrite : w.write c (key.map coerceKey) v with
  | none => exact ⟨hw, rfl⟩
  | some u => exact write_reachable hw hx hv hwrite

/-- What a write or a merge by thread `t` leaves. -/
structure Ran (E : Engine) (w₀ w w' : World) : Prop where
  reachable : Reachable E w'
  frame : w'.frame = w.frame
  made : Made w₀ w'

theorem writeMember_ran (hw : Reachable E w) (h : Made w₀ w) {c : Addr}
    {x : Conn} (hx : w.ready c = some x) {k : Key}
    (hk : w₀.shared.get x.s = none →
      x.o.props.hash.find (coerceKey k) = none)
    {v : Zval} (hv : w.holds E x.z.owner v = true) (threw : Bool) :
    Ran E w₀ w (w.writeMember c (some k) v threw).world := by
  obtain ⟨hreach, hframe⟩ :=
    writeMember_reachable hw hx (some k) hv threw
  refine ⟨hreach, hframe, ?_⟩
  have hc := (ready_eq_some.mp hx).1
  cases hst : w.saveZval x.z.owner v with
  | none =>
      rw [writeMember_refused hc _ hst]
      exact h
  | some st => exact h.writeMember hc hk hst rfl

mutual
/-- A write, with the merges and writes inside it, is a run of steps. -/
theorem storeWrite_ran (E : Engine) (t : ThreadId) (w₀ : World) :
    (v : Php) → ∀ (w : World) (c : Addr) (x : Conn) (k : Key),
      Reachable E w → w.frame t = .idle → Made w₀ w →
      w.conn c = some x → x.z.owner = t → v.all (w.holds E t) = true →
      v.Sound →
      (w₀.shared.get x.s = none →
        x.o.props.hash.find (coerceKey k) = none) →
      ∀ o, storeWrite E t true v w c (some k) = some o →
        Ran E w₀ w o.world
  | .leaf v => by
      intro w c x k hw hi hmade hx hown hheld _ hk o ho
      rw [storeWrite] at ho
      cases ho
      rw [Php.all] at hheld
      exact writeMember_ran hw hmade
        (ready_eq_some.mpr ⟨hx, by rw [hown]; exact hi⟩) hk
        (by rw [hown]; exact hheld) false
  | .array es => by
      intro w c x k hw hi hmade hx hown hheld hsound hk o ho
      rw [Php.all] at hheld
      rw [Php.Sound] at hsound
      have hcon := hw.skel.connecting t
      obtain ⟨w₁, hnew, hconn₁, hin₁⟩ := newArray_spec (E := E) hcon
      obtain ⟨hw₁, hf₁⟩ := newArray_reachable hw hi hnew
      have hmade₁ := hmade.newArray hw.skel hnew
      have hheld₁ := Inside.allEntries_holds E (hin₁ x.s) es hheld
      obtain ⟨o₁, hmerge, hm⟩ := mergeTable_spec E t es w₁
        (w.mem.next E.object) (newConn E w t) hconn₁ rfl
        ((hin₁ x.s).connecting ▸ hcon) hheld₁
      have hran := mergeTable_ran E t w₀ es w₁ (w.mem.next E.object)
        (newConn E w t) hw₁ (by rw [hf₁]; exact hi) hmade₁ hconn₁ rfl hheld₁
        hsound.2 (fun _ => ⟨nodup_coerced hsound.1,
          fun e _ hmem => by cases hmem⟩) o₁ hmerge
      have hf : o₁.world.frame = w.frame := hran.frame.trans hf₁
      -- the destination is as it was
      obtain ⟨l₂, hx₂⟩ := Inside.conn_outer hin₁ hm.within
        (w.shared.get_next E.shared) hx
      obtain ⟨l, p, hconn, -⟩ := hm.conn
      rw [storeWrite, if_pos rfl, hnew, Option.bind_some, hmerge,
        Option.map_some] at ho
      cases ho
      have hlast := writeMember_ran hran.reachable hran.made
        (ready_eq_some.mpr ⟨hx₂, by rw [hf, hown]; exact hi⟩) hk
        (v := .object (w.mem.next E.object)) (by
          rw [holds, hconn]
          exact beq_iff_eq.mpr hown.symm) o₁.threw
      exact ⟨hlast.reachable, hlast.frame.trans hf, hlast.made⟩

theorem mergeTable_ran (E : Engine) (t : ThreadId) (w₀ : World) :
    (es : List (Key × Php)) → ∀ (w : World) (c : Addr) (x : Conn),
      Reachable E w → w.frame t = .idle → Made w₀ w →
      w.conn c = some x → x.z.owner = t →
      Php.allEntries (w.holds E t) es = true → Php.SoundEntries es →
      (w₀.shared.get x.s = none →
        (es.map fun e => coerceKey e.1).Nodup
          ∧ ∀ e ∈ es, coerceKey e.1 ∉ x.o.props.hash.entries.map Prod.fst) →
      ∀ o, mergeTable E t true true es w c = some o → Ran E w₀ w o.world
  | [] => by
      intro w c x hw _ hmade _ _ _ _ _ o ho
      cases ho
      exact ⟨hw, rfl, hmade⟩
  | (k, v) :: es => by
      intro w c x hw hi hmade hx hown hheld hsound hk o ho
      rw [Php.allEntries, Bool.and_eq_true] at hheld
      rw [Php.SoundEntries] at hsound
      have hfresh : w₀.shared.get x.s = none →
          x.o.props.hash.find (coerceKey k) = none := fun hn =>
        HashTable.find_eq_none_iff.mpr ((hk hn).2 (k, v) List.mem_cons_self)
      obtain ⟨o₁, hwrite, hwrote⟩ := storeWrite_spec E t v true w c x (some k)
        hx hown (hw.skel.connecting t) hheld.1
      have hran := storeWrite_ran E t w₀ v w c x k hw hi hmade hx hown
        hheld.1 hsound.1 hfresh o₁ hwrite
      rw [mergeTable] at ho
      simp only [Bool.not_true, Bool.false_and, Bool.false_eq_true,
        if_false, hwrite, Option.bind_some] at ho
      split at ho
      case isTrue =>
        cases ho
        exact hran
      case isFalse hr =>
        have hraised := hwrote.raised
        rw [Bool.not_eq_true _ |>.mp hr] at hraised
        obtain ⟨st, l, p, hconn, hp, -, -⟩ := hwrote.accepted (by
          by_contra hno
          rw [storable, Bool.not_eq_true _ |>.mp hno] at hraised
          cases hraised)
        have hrest := mergeTable_ran E t w₀ es o₁.world c _ hran.reachable
          (by rw [hran.frame]; exact hi) hran.made hconn hown
          (Inside.allEntries_holds E hwrote.within es hheld.2) hsound.2
          (fun hn => ?_) o ho
        · exact ⟨hrest.reachable, hrest.frame.trans hran.frame, hrest.made⟩
        · obtain ⟨hnd, habs⟩ := hk hn
          rw [List.map_cons, List.nodup_cons] at hnd
          refine ⟨hnd.2, fun e he hmem => ?_⟩
          change coerceKey e.1 ∈ p.hash.entries.map Prod.fst at hmem
          have hent : p.hash.entries
              = x.o.props.hash.entries ++ [(coerceKey k, st)] := by
            rw [hp]
            exact HashTable.entries_update_of_notMem
              (habs (k, v) List.mem_cons_self)
          rw [hent, List.map_append, List.mem_append] at hmem
          rcases hmem with hmem | hmem
          · exact habs e (List.mem_cons_of_mem _ he) hmem
          · rw [List.map_cons, List.map_nil, List.mem_singleton] at hmem
            exact hnd.1 (List.mem_map.mpr ⟨e, he, hmem⟩)
end

end PmmpThread.Model.World
