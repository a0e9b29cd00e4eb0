/-
The modification counts: a connection is never ahead of its store
(`Behind`), and a connection that a step has just made is behind. With
it the few facts about single values that the cache invariants need
from a step: strings and closures that stay are the same, an object
that is being freed stays in its batch.
-/
import PmmpThread.Proofs.Steps

namespace PmmpThread.Model.World

open Zend

variable {E : Engine} {a t : ThreadId} {w w' : World}

-- ==================================================== values that stay

/-- A string that is there before and after a step is the same. -/
def StringsStay (w w' : World) : Prop :=
  ∀ p s s', w.strings.get p = some s → w'.strings.get p = some s' → s' = s

theorem stringsStay_of_mono
    (h : ∀ {p s}, w.strings.get p = some s → w'.strings.get p = some s) :
    StringsStay w w' := by
  intro p s s' hp hp'
  rw [h hp] at hp'
  exact (Option.some.inj hp').symm

/-- The thread that a step acts for, if it is not the engine freeing a
string or a closure. -/
theorem step_by {act : Act} (hs : Skel w) (hown : OwnInv w)
    (hstep : step E w act = some w') :
    (∃ p, act = .freeString p ∧ w' = { w with strings := w.strings.free p })
      ∨ (∃ p, act = .freeClosure p ∧ w' = w.freeClosure p)
      ∨ ∃ a, By a w w' := by
  have hcon := fun t => hs.connecting t
  have hready : ∀ {c x} {u : World} {l : Local}, w.ready c = some x →
      Grow E x.z.owner w u → By x.z.owner w (u.setLocal c l) := by
    intro c x u l hx hg
    obtain ⟨hz, -, -⟩ := conn_eq_some.mp (ready_eq_some.mp hx).1
    exact hg.by.trans ((edit_setLocal (hg.mem hz) l).by rfl (fun _ => rfl)
      fun _ h => h)
  have htrims : ∀ {c x} {u : World} {r : Local × Store Storage} {f : Frame},
      w.ready c = some x → Grow E x.z.owner w u → Trims x r →
      By x.z.owner w ((u.commit c x.s r).setFrame x.z.owner f) := by
    intro c x u r f hx hg hr
    obtain ⟨n, hcu⟩ := hg.conn (ready_eq_some.mp hx).1
    have hr' : Trims ⟨x.z, x.s, { x.o with refcount := n }⟩ r :=
      ⟨hr.find, hr.cached⟩
    exact hg.by.trans (hr'.by hcu f)
  have hidle : ∀ {c x} {u : World} {r : Local × Store Storage},
      w.ready c = some x → Grow E x.z.owner w u → Trims x r →
      By x.z.owner w (u.commit c x.s r) := by
    intro c x u r hx hg hr
    have h := htrims (f := .idle) hx hg hr
    rw [setFrame_self] at h
    · exact h
    · show u.frame x.z.owner = .idle
      rw [hg.extends.frame]
      exact (ready_eq_some.mp hx).2
  cases step_effect hstep with
  | @freeString p _ => exact Or.inl ⟨p, rfl, rfl⟩
  | @freeClosure p => exact Or.inr (Or.inl ⟨p, rfl, rfl⟩)
  | @newString t b _ =>
      exact Or.inr (Or.inr ⟨t, Grow.by (E := E) (.single (.string b))⟩)
  | @newClosure cl _ =>
      exact Or.inr (Or.inr ⟨0, Grow.by (E := E) (.single (.closure cl))⟩)
  | @alloc t declared _ _ _ _ =>
      exact Or.inr (Or.inr ⟨t, (By.objectAlloc w declared).trans
        (.setFrame _ t _)⟩)
  | @ctor t o _ _ u hf hu =>
      exact Or.inr (Or.inr ⟨t, (ctor_own hs (hown t) hf hu).1.trans
        (.setFrame u t _)⟩)
  | @connect t o _ =>
      exact Or.inr (Or.inr ⟨t, (objectConnect_grow (hcon t) o).by⟩)
  | @bindGlobals o x hx =>
      exact Or.inr (Or.inr ⟨x.z.owner, { By.refl x.z.owner w with
        globals := fun ht => Function.update_of_ne ht _ _ }⟩)
  | @addGarbage x o cx _ hx _ _ _ _ =>
      exact Or.inr (Or.inr ⟨cx.z.owner,
        By.setGc (conn_eq_some.mp hx).1 rfl (· ++ [o])⟩)
  | @collect x cx hx =>
      exact Or.inr (Or.inr ⟨cx.z.owner,
        By.setGc (conn_eq_some.mp (ready_eq_some.mp hx).1).1 rfl List.tail⟩)
  | @release t batch _ =>
      exact Or.inr (Or.inr ⟨t, .setFrame w t _⟩)
  | @baseFree t o batch u hf hu =>
      have hby := (free_own hs (hown t) hf hu (f := .freeing batch) rfl
        ⟨fun _ _ _ h => (nomatch h), fun _ _ h => (nomatch h), trivial⟩).1
      exact Or.inr (Or.inr ⟨t, hby.trans (.setFrame u t _)⟩)
  | readCached hx _ => exact Or.inr (Or.inr ⟨_, hready hx .refl⟩)
  | readNothing hx => exact Or.inr (Or.inr ⟨_, hready hx .refl⟩)
  | @readThrew c k access x st u hx hr =>
      have hg := grow_of_restored hr (hcon x.z.owner)
      exact Or.inr (Or.inr ⟨_, (hready hx .refl).trans hg.by⟩)
  | @readRestored c k access x st v u hx _ _ hr =>
      have hg := grow_of_restored hr (hcon x.z.owner)
      exact Or.inr (Or.inr ⟨_, ((hready hx .refl).trans hg.by).trans
        (.setFrame u _ _)⟩)
  | write hx _ hst =>
      exact Or.inr (Or.inr ⟨_, (By.commitWrite (ready_eq_some.mp hx).1
        hst).trans (.setFrame _ _ _)⟩)
  | @delete c k x hx _ =>
      exact Or.inr (Or.inr ⟨_, htrims hx .refl (trims_delete x _ k)⟩)
  | @deleteNothing c k x hx _ =>
      exact Or.inr (Or.inr ⟨_, hidle hx .refl (trims_delete x false k)⟩)
  | @fill t c k v hf =>
      have hfo := hs.frames t
      rw [hf] at hfo
      obtain ⟨z, s, hz, ho, -⟩ := hfo
      exact Or.inr (Or.inr ⟨t, (By.modify hz ho fun z =>
        z.loc.updateLocalProperty z.declared k v).trans (.setFrame _ _ _)⟩)
  | @drop t c k hf =>
      have hfo := hs.frames t
      rw [hf] at hfo
      obtain ⟨z, s, hz, ho, -⟩ := hfo
      exact Or.inr (Or.inr ⟨t, (By.modify hz ho fun z => z.loc.del k).trans
        (.setFrame _ _ _)⟩)
  | @take act c x e p r u hx ht hr _ =>
      have hg := grow_of_restored hr (hcon x.z.owner)
      exact Or.inr (Or.inr ⟨_, hidle hx hg (trims_afterTake ht.takes)⟩)
  | takeNothing _ _ => exact Or.inr (Or.inr ⟨0, .refl 0 w⟩)
  | @chunk c size x r hx hr =>
      exact Or.inr (Or.inr ⟨_, hidle hx (restoreAll_grow _ (hcon _) hr)
        (trims_afterChunk x size)⟩)
  | merge hx _ hes =>
      exact Or.inr (Or.inr ⟨_, hidle hx .refl (trims_afterMerge _ hes)⟩)
  | @tohash c own x r l hx hr _ =>
      exact Or.inr (Or.inr ⟨_, hready hx (restoreAll_grow _ (hcon _) hr)⟩)
  | sync hx => exact Or.inr (Or.inr ⟨_, hready hx .refl⟩)
  | @fullSync c x fuel u hx hu =>
      obtain ⟨hc, hi⟩ := ready_eq_some.mp hx
      have hsy := (fullSync_syncs visits_own fuel
        ⟨hs, hown x.z.owner, hi⟩ ⟨x.z, (conn_eq_some.mp hc).1, rfl⟩ hu).1
      exact Or.inr (Or.inr ⟨_, hsy.by hs⟩)
  | @join c x fuel u hx hu =>
      obtain ⟨hc, hi⟩ := ready_eq_some.mp hx
      have hsy := joinSync_syncs visits_own ⟨hs, hown x.z.owner, hi⟩
        ⟨x.z, (conn_eq_some.mp hc).1, rfl⟩
        (fun g hg => (hown x.z.owner).globals hg) hu
      exact Or.inr (Or.inr ⟨_, hsy.by hs⟩)

theorem step_values {act : Act} (hs : Skel w) (hown : OwnInv w)
    (hstep : step E w act = some w') :
    StringsStay w w' ∧ ClosuresStay w w' := by
  rcases step_by hs hown hstep with ⟨p, -, rfl⟩ | ⟨p, -, rfl⟩ | ⟨a, hby⟩
  · refine ⟨fun q s s' hq hq' => ?_, .refl w⟩
    change (w.strings.free p).get q = some s' at hq'
    rw [Heap.get_free] at hq'
    split at hq'
    · cases hq'
    · rw [hq] at hq'
      exact (Option.some.inj hq').symm
  · exact ⟨stringsStay_of_mono fun h => h, closuresStay_freeClosure w p⟩
  · exact ⟨stringsStay_of_mono hby.str, hby.closures⟩

-- ============================================================ freeing

/-- A free removes the object. -/
theorem freesAt.dead {act : Act} {c : Addr} (hs : Skel w)
    (h : freesAt w c act) (hstep : step E w act = some w') :
    w'.mem.get c = none := by
  obtain ⟨t, batch, rfl, hf⟩ := h
  cases step_effect hstep with
  | @baseFree _ o batch' u hf' hu =>
      rw [hf] at hf'
      injection hf' with hf'
      injection hf' with hco _
      obtain ⟨s, htsOf, hres, ob, hob⟩ := hs.freeing hf
      rw [← hco] at hu
      show u.mem.get c = none
      rw [(baseFree_mem htsOf hob hres hu).1, Heap.get_free, if_pos rfl]
  | take _ ht _ _ => rcases ht with ⟨h, -⟩ | ⟨h, -⟩ <;> cases h
  | takeNothing hact _ => rcases hact with h | h <;> cases h

/-- A thread that frees objects does nothing else. -/
theorem step_freeing {act : Act} {batch : List Addr}
    (hf : w.frame t = .freeing batch) (hs : Skel w)
    (hstep : step E w act = some w') :
    w'.frame t = .freeing batch ∨ ∃ o rest, batch = o :: rest
      ∧ act = .baseFree t ∧ (w'.frame t).batch = rest := by
  have hcon := fun t => hs.connecting t
  have hext : ∀ {u : World}, Extends w u → u.frame t = .freeing batch := by
    intro u hu
    rw [hu.frame, hf]
  have hset : ∀ {u : World} {t' : ThreadId} {f : Frame}, u.frame = w.frame →
      t ≠ t' → (u.setFrame t' f).frame t = .freeing batch := by
    intro u t' f hu ht
    show Function.update u.frame t' f t = _
    rw [Function.update_of_ne ht, hu, hf]
  have hne : ∀ {t' f}, w.frame t' = f → (∀ b, f ≠ .freeing b) → t ≠ t' := by
    intro t' f hf' hfr ht
    rw [← ht, hf] at hf'
    exact hfr batch hf'.symm
  have hready : ∀ {c x}, w.ready c = some x → t ≠ x.z.owner :=
    fun hx => hne (ready_eq_some.mp hx).2 fun _ h => (nomatch h)
  cases step_effect hstep with
  | alloc hf' _ =>
      exact Or.inl (hset rfl (hne hf' fun _ h => (nomatch h)))
  | @ctor t' o scope defaults u hf' hu =>
      have hfo := hs.frames t'
      rw [hf'] at hfo
      obtain ⟨z, hz, -⟩ := hfo
      exact Or.inl (hset (baseCtor_same hs hz hu).2
        (hne hf' fun _ h => (nomatch h)))
  | connect _ => exact Or.inl (hext (objectConnect_grow (hcon _) _).extends)
  | release hb =>
      exact Or.inl (hset rfl (hne (canRelease_spec hb).1
        fun _ h => (nomatch h)))
  | @baseFree t' o rest u hf' hu =>
      obtain ⟨s, htsOf, hres, ob, hob⟩ := hs.freeing hf'
      obtain ⟨-, -, -, hfr, -⟩ := baseFree_mem htsOf hob hres hu
      by_cases ht : t = t'
      · rw [← ht, hf] at hf'
        injection hf' with hf'
        refine Or.inr ⟨o, rest, hf', by rw [ht], ?_⟩
        rw [ht, frame_setFrame]
        split
        case isTrue he => rw [List.isEmpty_iff.mp he]; rfl
        case isFalse => rfl
      · exact Or.inl (hset hfr ht)
  | @readRestored c k access x st v u hx _ _ hr =>
      have hg := grow_of_restored hr (hcon x.z.owner)
      exact Or.inl (hset hg.extends.frame (hready hx))
  | @readThrew c k access x st u hx hr =>
      have hg := grow_of_restored hr (hcon x.z.owner)
      refine Or.inl ?_
      rw [hg.extends.frame]
      exact hf
  | write hx _ _ => exact Or.inl (hset rfl (hready hx))
  | delete hx _ => exact Or.inl (hset rfl (hready hx))
  | fill hf' => exact Or.inl (hset rfl (hne hf' fun _ h => (nomatch h)))
  | drop hf' => exact Or.inl (hset rfl (hne hf' fun _ h => (nomatch h)))
  | @take act c x e p r u hx ht hr _ =>
      have hg := grow_of_restored hr (hcon x.z.owner)
      have h := hext hg.extends
      exact Or.inl h
  | chunk _ hr =>
      have h := hext (restoreAll_grow _ (hcon _) hr).extends
      exact Or.inl h
  | tohash _ hr _ =>
      have h := hext (restoreAll_grow _ (hcon _) hr).extends
      exact Or.inl h
  | fullSync _ hu =>
      have hsy := (fullSync_syncs visits_all _ (hcon _) trivial hu).1
      exact Or.inl (hext (hsy.extends (hcon _)))
  | join _ hu =>
      have hsy := joinSync_syncs visits_all (hcon _) trivial
        (fun _ _ => trivial) hu
      exact Or.inl (hext (hsy.extends (hcon _)))
  | _ => exact Or.inl hf

/-- An object about to be freed stays that until it is freed. -/
theorem step_batch {act : Act} {c : Addr} (hs : Skel w)
    (hstep : step E w act = some w') (hc : c ∈ (w.frame t).batch) :
    freesAt w c act ∨ c ∈ (w'.frame t).batch := by
  cases hf : w.frame t with
  | freeing batch =>
      rw [hf] at hc
      rcases step_freeing hf hs hstep with h | ⟨o, rest, hb, hact, hr⟩
      · exact Or.inr (by rw [h]; exact hc)
      · change c ∈ batch at hc
        rw [hb] at hc hf
        rcases List.mem_cons.mp hc with rfl | hc
        · exact Or.inl ⟨t, rest, hact, hf⟩
        · exact Or.inr (hr ▸ hc)
  | _ =>
      rw [hf] at hc
      cases hc

-- ================================================= modification counts

/-- A constructed object is a connection. -/
theorem Skel.conn (hs : Skel w) {c : Addr} {z : ZObj} {s : TsAddr}
    (hz : w.mem.get c = some z) (hts : z.tsObj = some s) :
    ∃ x, w.conn c = some x := by
  obtain ⟨o, ho⟩ := hs.tsLive hz hts
  exact ⟨⟨z, s, o⟩, conn_eq_some.mpr ⟨hz, hts, ho⟩⟩

/-- A connection that was not there before the additions is behind. -/
theorem Grow.conn_new (h : Grow E t w w') (hs : Skel w) {c : Addr}
    {z : ZObj} {s : TsAddr} (hn : w.conn c = none)
    (hz : w'.mem.get c = some z) (hts : z.tsObj = some s) :
    z.loc.modcount < w'.modcountOf s := by
  rcases h.new hz with hz | ⟨-, -, -, s', hts', hl⟩
  · obtain ⟨x, hx⟩ := hs.conn hz hts
    rw [hn] at hx
    cases hx
  · have hss : s' = s := Option.some.inj (hts'.symm.trans hts)
    rw [hl, hss, h.modcountOf]
    show w.modcountOf s - 1 < w.modcountOf s
    omega

theorem baseCtor_behind (hc : w.connecting t = none) {o : Addr}
    {scope : Scope} {defaults : List (List Default)}
    (hu : w.baseCtor E t o scope defaults = some w') {x : Conn}
    (hx : w'.conn o = some x) : x.z.loc.modcount < x.o.props.modcount := by
  unfold baseCtor at hu
  rw [hc] at hu
  replace hu := Option.some.inj hu
  obtain ⟨hz, hts, ho⟩ := conn_eq_some.mp hx
  rw [← hu] at hz ho
  unfold registerObject at hz ho
  split at hz
  case h_1 hnone =>
    unfold tsOf at hnone
    rw [hz, Option.bind_some, hts] at hnone
    cases hnone
  case h_2 s hs =>
    simp only [hs] at ho
    change (Heap.modify _ o _).get o = _ at hz
    rw [Heap.get_modify_self] at hz
    obtain ⟨z, hz', hzx⟩ := Option.map_eq_some_iff.mp hz
    have hss : s = x.s := by
      unfold tsOf at hs
      rw [hz', Option.bind_some] at hs
      rw [← hzx] at hts
      exact Option.some.inj (hs.symm.trans hts)
    rw [← hzx, hss, ho]
    show x.o.props.modcount - 1 < x.o.props.modcount
    omega

/-- A connection that a step other than a full sync has made is
behind. -/
theorem step_new {act : Act} (hs : Skel w) (hstep : step E w act = some w')
    (hact : ∀ c' fuel, act ≠ .fullSync c' fuel ∧ act ≠ .join c' fuel)
    {c : Addr} {x : Conn} (hn : w.conn c = none) (hx : w'.conn c = some x) :
    x.z.loc.modcount < x.o.props.modcount := by
  have hcon := fun t => hs.connecting t
  obtain ⟨hz, hts, ho⟩ := conn_eq_some.mp hx
  -- an object that was constructed before was a connection
  have hold : ∀ {z : ZObj}, w.mem.get c = some z → z.tsObj = some x.s →
      x.z.loc.modcount < x.o.props.modcount := by
    intro z hz' hts'
    obtain ⟨y, hy⟩ := hs.conn hz' hts'
    rw [hn] at hy
    cases hy
  have hskel : ∀ {v : World}, SameSkel w v → w'.mem = v.mem →
      x.z.loc.modcount < x.o.props.modcount := by
    intro v hv hm
    rw [hm] at hz
    obtain ⟨z, hz', -, hts'⟩ := hv.get hz
    exact hold hz' (hts'.trans hts)
  have hgrow : ∀ {v u : World} {t : ThreadId}, SameSkel w v →
      v.frame = w.frame → Grow E t v u → u.mem.get c = some x.z →
      u.modcountOf x.s ≤ x.o.props.modcount →
      x.z.loc.modcount < x.o.props.modcount := by
    intro v u t hv hf hg hzu hm
    have hnv : v.conn c = none := by
      cases hxv : v.conn c with
      | none => rfl
      | some y =>
          obtain ⟨hzv, htsv, -⟩ := conn_eq_some.mp hxv
          obtain ⟨z, hz', -, hts'⟩ := hv.get hzv
          obtain ⟨y', hy'⟩ := hs.conn hz' (hts'.trans htsv)
          rw [hn] at hy'
          cases hy'
    exact Int.lt_of_lt_of_le (hg.conn_new (hs.same hv hf) hnv hzu hts) hm
  have hne : ∀ {c' y}, w.ready c' = some y → c ≠ c' := by
    intro c' y hy hc
    rw [hc, (ready_eq_some.mp hy).1] at hn
    cases hn
  have hcommit : ∀ {c' y u r}, w.ready c' = some y →
      Grow E y.z.owner w u → Bumps y r → w'.mem = (u.commit c' y.s r).mem →
      w'.shared = (u.commit c' y.s r).shared →
      x.z.loc.modcount < x.o.props.modcount := by
    intro c' y u r hy hg hb hm hsh
    obtain ⟨n, hyu⟩ := hg.conn (ready_eq_some.mp hy).1
    obtain ⟨-, -, hou⟩ := conn_eq_some.mp hyu
    refine hgrow (.refl w) rfl hg ?_ ?_
    · rw [hm, mem_commit, if_neg (hne hy)] at hz
      exact hz
    · rw [hsh] at ho
      rw [← modcountOf_eq (w := u.commit c' y.s r) ho, modcountOf_commit hou]
      split
      case isTrue hss =>
        rw [hss, modcountOf_eq hou]
        have hsh := hb.shared
        change y.o.props.modcount ≤ _
        omega
      case isFalse => exact Int.le_refl _
  cases step_effect hstep with
  | @alloc t declared scope defaults hf _ =>
      change (w.mem.place _ _).get c = _ at hz
      rw [Heap.get_place] at hz
      split at hz
      · rw [← Option.some.inj hz] at hts
        cases hts
      · exact hold hz hts
  | @ctor t o scope defaults u hf hu =>
      by_cases hc : c = o
      · rw [hc] at hx
        exact baseCtor_behind (hcon t) hu hx
      · change u.mem.get c = _ at hz
        rw [baseCtor_mem (hcon t) hu hc] at hz
        exact hold hz hts
  | connect _ =>
      refine hgrow (.refl w) rfl (objectConnect_grow (hcon _) _) hz ?_
      exact Int.le_of_eq (modcountOf_eq ho)
  | @addGarbage y o _ _ _ _ _ _ _ =>
      exact hskel (sameSkel_modify w y
        (fun z => { z with gc := z.gc ++ [o] }) fun _ => ⟨rfl, rfl⟩) rfl
  | @collect y _ _ =>
      exact hskel (sameSkel_modify w y
        (fun z => { z with gc := z.gc.tail }) fun _ => ⟨rfl, rfl⟩) rfl
  | @baseFree t o batch u hf hu =>
      obtain ⟨so, hto, hres, oo, hoo⟩ := hs.freeing hf
      change u.mem.get c = _ at hz
      rw [(baseFree_mem hto hoo hres hu).1, Heap.get_free] at hz
      split at hz
      · cases hz
      · exact hold hz hts
  | readCached _ _ => exact hskel (sameSkel_setLocal w _ _) rfl
  | readNothing _ => exact hskel (sameSkel_setLocal w _ _) rfl
  | @readRestored c' k access y st v u _ _ _ hr =>
      have hg := grow_of_restored hr (hcon y.z.owner)
      refine hgrow (sameSkel_setLocal w c' _) rfl hg hz ?_
      exact Int.le_of_eq (modcountOf_eq (w := u) ho)
  | @readThrew c' k access y st u _ hr =>
      have hg := grow_of_restored hr (hcon y.z.owner)
      refine hgrow (sameSkel_setLocal w c' _) rfl hg hz ?_
      exact Int.le_of_eq (modcountOf_eq ho)
  | write _ _ _ => exact hskel (sameSkel_commit w _ _ _) rfl
  | delete _ _ => exact hskel (sameSkel_commit w _ _ _) rfl
  | deleteNothing _ _ => exact hskel (sameSkel_commit w _ _ _) rfl
  | @fill t c' k v _ =>
      exact hskel (sameSkel_updateLocalProperty w c' k v) rfl
  | @drop t c' k _ =>
      exact hskel (sameSkel_modify w c'
        (fun z => { z with loc := z.loc.del k }) fun _ => ⟨rfl, rfl⟩) rfl
  | @take act c' y e p r u hy ht hr _ =>
      have hg := grow_of_restored hr (hcon y.z.owner)
      exact hcommit hy hg (bumps_afterTake ht.takes) rfl rfl
  | @chunk c' size y r hy hr =>
      exact hcommit hy (restoreAll_grow _ (hcon _) hr)
        (bumps_afterChunk y size) rfl rfl
  | merge _ _ _ => exact hskel (sameSkel_commit w _ _ _) rfl
  | @tohash c' own y r l hy hr _ =>
      rw [mem_setLocal, if_neg (hne hy)] at hz
      refine hgrow (.refl w) rfl (restoreAll_grow _ (hcon _) hr) hz ?_
      exact Int.le_of_eq (modcountOf_eq (w := r.2) ho)
  | sync _ => exact hskel (sameSkel_setLocal w _ _) rfl
  | fullSync _ _ => exact absurd rfl (hact _ _).1
  | join _ _ => exact absurd rfl (hact _ _).2
  | _ => exact hold hz hts

/-- No connection is ahead of its store. -/
def Behind (w : World) : Prop :=
  ∀ c x, w.conn c = some x → x.z.loc.modcount ≤ x.o.props.modcount

theorem modcount_readSync (w : World) (x : Conn) :
    (w.readSync x).modcount = x.z.loc.modcount
      ∨ (w.readSync x).modcount = x.o.props.modcount := by
  unfold readSync
  split
  · exact Or.inr (Local.modcount_sync _ _ _ _)
  · exact Or.inl rfl

theorem modcount_tohashSync (w : World) (x : Conn) :
    (w.tohashSync x).modcount = x.o.props.modcount :=
  Local.modcount_sync _ _ _ _

/-- Changing one local table to one that is not ahead. -/
theorem Behind.modify (h : Behind w) {c : Addr} {x : Conn}
    (hx : w.conn c = some x) {f : ZObj → Local}
    (hl : (f x.z).modcount ≤ x.o.props.modcount) :
    Behind { w with mem := w.mem.modify c fun z =>
      { z with loc := f z } } := by
  intro c' y hy
  obtain ⟨hz, hts, ho⟩ := conn_eq_some.mp hx
  obtain ⟨hzy, htsy, hoy⟩ := conn_eq_some.mp hy
  change (w.mem.modify c _).get c' = _ at hzy
  rw [Heap.get_modify] at hzy
  split at hzy
  case isTrue hc =>
    rw [hc, hz, Option.map_some] at hzy
    rw [← Option.some.inj hzy] at htsy ⊢
    have hs : y.s = x.s := Option.some.inj (htsy.symm.trans hts)
    rw [hs] at hoy
    rw [← Option.some.inj (ho.symm.trans hoy)]
    exact hl
  case isFalse => exact h c' y (conn_eq_some.mpr ⟨hzy, htsy, hoy⟩)

theorem Grow.behind (hg : Grow E t w w') (hs : Skel w) (h : Behind w) :
    Behind w' := by
  intro c x hx
  obtain ⟨hz, hts, ho⟩ := conn_eq_some.mp hx
  cases hy : w.conn c with
  | none =>
      have hlt := hg.conn_new hs hy hz hts
      rw [modcountOf_eq ho] at hlt
      omega
  | some y =>
      obtain ⟨n, hyu⟩ := hg.conn hy
      rw [hx] at hyu
      rw [Option.some.inj hyu]
      exact h c y hy

theorem Syncs.behind {own : ThreadId → Prop} (hsy : Syncs E t own w w')
    (hs : Skel w) (h : Behind w) : Behind w' := by
  induction hsy with
  | refl => exact h
  | grow hu hg ih => exact Grow.behind (.single hg) (hs.syncs hu) (ih hs h)
  | @sync w u c x hu hx ho ih =>
      refine (ih hs h).modify hx (f := fun _ => _) ?_
      rw [Local.modcount_initProps]
      exact Int.le_of_eq (Local.modcount_sync _ _ _ _)
  | @put w u u₁ u₂ c x k st r hu hx ho _ _ _ hr _ hu₂ hz ih ih' =>
      have hsu := hs.syncs hu
      have hg := grow_of_restored hr (hsu.connecting t)
      obtain ⟨-, hts, -⟩ := conn_eq_some.mp hx
      have hb := ih' (hsu.grow hg) (hg.behind hsu (ih hs h))
      obtain ⟨y, hy⟩ := ((hsu.grow hg).syncs hu₂).conn hz hts
      have hyz : y.z = x.z := by
        rw [(conn_eq_some.mp hy).1] at hz
        exact Option.some.inj hz
      refine hb.modify hy (f := fun z => z.loc.put z.declared k r.zval) ?_
      exact hb c y hy

theorem ConnStep.behind {c : Addr} {x : Conn} {act : Act} {l : Local}
    {p : Store Storage} (h : ConnStep E w c x act w' l p)
    (hs : Skel w) (hb : Behind w) (hx : w.conn c = some x)
    (hp : x.o.props.modcount ≤ p.modcount) : l.modcount ≤ p.modcount := by
  have hlx := hb c x hx
  cases h with
  | same _ => omega
  | read _ _ =>
      rcases modcount_readSync w x with h | h <;> omega
  | readFill _ _ _ _ =>
      rcases modcount_readSync w x with h | h <;> omega
  | sync _ _ =>
      exact Int.le_of_eq (Local.modcount_sync _ _ _ _)
  | tohash _ _ _ hl =>
      rcases hl with rfl | ⟨-, rfl⟩
      · exact Int.le_of_eq (modcount_tohashSync _ _)
      · show x.o.props.modcount - 1 ≤ _
        omega
  | write _ _ _ _ =>
      unfold writeStore
      exact Int.le_of_eq (Local.modcount_sync _ _ _ _)
  | trim _ _ hbump _ _ _ => exact hbump.behind hlx
  | fill _ _ => rw [Local.modcount_updateLocalProperty]; exact hlx
  | drop _ _ => exact hlx
  | syncs _ _ hsy hl =>
      obtain ⟨n, l', hx'⟩ := (hsy.extends (hs.connecting _)).conn hx
      have hle := hsy.behind hs hb c _ hx'
      unfold locOf at hl
      rw [(conn_eq_some.mp hx').1] at hl
      rw [← Option.some.inj hl]
      exact hle

/-- A connection that a step leaves was not freed by it. -/
theorem not_freesAt {act : Act} (hs : Skel w)
    (hstep : step E w act = some w') {c : Addr} {x : Conn}
    (hx : w'.conn c = some x) : ¬ freesAt w c act := by
  intro hf
  have hdead := hf.dead hs hstep
  rw [(conn_eq_some.mp hx).1] at hdead
  cases hdead

/-- A connection before and after a step. -/
theorem step_pair {act : Act} (hs : Skel w) (hown : OwnInv w)
    (hstep : step E w act = some w') {c : Addr} {x x' : Conn}
    (hx : w.conn c = some x) (hx' : w'.conn c = some x') :
    x'.z.owner = x.z.owner ∧ x'.s = x.s
      ∧ StoreStep w x.s act x.o.props x'.o.props
      ∧ ConnStep E w c x act w' x'.z.loc x'.o.props := by
  have hnf := not_freesAt hs hstep hx'
  rcases step_conn hs hown hstep hx with hf | ⟨y, hy, ho, hss, hst, -⟩
  · exact absurd hf hnf
  · have hyx : y = x' := by
      rw [hx'] at hy
      exact (Option.some.inj hy).symm
    subst hyx
    exact ⟨ho, hss, hst, step_local hs hown hstep hx hx' hnf⟩

/-- A full sync is made by one idle thread. -/
theorem step_syncs {act : Act} (hs : Skel w) (hown : OwnInv w)
    (hstep : step E w act = some w')
    (hact : ¬ ∀ c' fuel, act ≠ .fullSync c' fuel ∧ act ≠ .join c' fuel) :
    ∃ t, w.frame t = .idle ∧ Syncs E t (· = t) w w' := by
  cases step_effect hstep with
  | @fullSync c y fuel u hy hu =>
      obtain ⟨hc, hi⟩ := ready_eq_some.mp hy
      exact ⟨y.z.owner, hi, (fullSync_syncs visits_own fuel
        ⟨hs, hown y.z.owner, hi⟩ ⟨y.z, (conn_eq_some.mp hc).1, rfl⟩ hu).1⟩
  | @join c y fuel u hy hu =>
      obtain ⟨hc, hi⟩ := ready_eq_some.mp hy
      exact ⟨y.z.owner, hi, joinSync_syncs visits_own
        ⟨hs, hown y.z.owner, hi⟩ ⟨y.z, (conn_eq_some.mp hc).1, rfl⟩
        (fun g hg => (hown y.z.owner).globals hg) hu⟩
  | take _ ht _ _ =>
      refine absurd (fun c' fuel => ?_) hact
      rcases ht with ⟨h, -⟩ | ⟨h, -⟩
      · rw [h]
        exact ⟨fun h => (nomatch h), fun h => (nomatch h)⟩
      · rw [h]
        exact ⟨fun h => (nomatch h), fun h => (nomatch h)⟩
  | takeNothing h _ =>
      refine absurd (fun c' fuel => ?_) hact
      rcases h with h | h
      · rw [h]
        exact ⟨fun h => (nomatch h), fun h => (nomatch h)⟩
      · rw [h]
        exact ⟨fun h => (nomatch h), fun h => (nomatch h)⟩
  | _ =>
      exact absurd (fun _ _ => ⟨fun h => (nomatch h), fun h => (nomatch h)⟩)
        hact

theorem step_behind {act : Act} (hs : Skel w) (hown : OwnInv w)
    (hb : Behind w) (hstep : step E w act = some w') : Behind w' := by
  intro c x' hx'
  cases hx : w.conn c with
  | some x =>
      obtain ⟨-, -, hst, hc⟩ := step_pair hs hown hstep hx hx'
      exact hc.behind hs hb hx hst.mono
  | none =>
      by_cases hact : ∀ c' fuel, act ≠ .fullSync c' fuel
          ∧ act ≠ .join c' fuel
      · have hlt := step_new hs hstep hact hx hx'
        omega
      · obtain ⟨t, -, hsy⟩ := step_syncs hs hown hstep hact
        exact hsy.behind hs hb c x' hx'

theorem Reachable.behind (h : Reachable E w) : Behind w := by
  have := h.induct (P := fun w => Skel w ∧ OwnInv w ∧ Behind w)
    ⟨skel_init, ownOf_init, fun _ _ h => (nomatch h)⟩
    fun _ _ _ hp hstep => ⟨step_skel hp.1 hstep,
      step_own hp.1 hp.2.1 hstep, step_behind hp.1 hp.2.1 hp.2.2 hstep⟩
  exact this.2.2

end PmmpThread.Model.World
