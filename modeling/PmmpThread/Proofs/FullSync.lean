/-
The full sync that `pmmpthread_join` relies on is complete: it leaves
the thread with a connection to every object that can be reached from
where it started, in whose local table the objects it refers to are
cached.

# Which entries

An entry counts if its address is a live object and the thread has
nothing wrong under it (`Follows`): a full sync does not look at the
entries of a table that is in sync, it takes what is cached there,
right or wrong. Both hold of an entry all through the full sync once
they hold at its start (`Follows.syncs`).

# Shape

The recursion guard of the source marks the objects on the stack of the
recursion, not those that were visited. A search of that kind still
reaches everything, because whatever can be reached can be reached by a
walk that never comes back to a node it has been to (`Walk`). What was
cached once stays: the later syncs of the same full sync find the entry
valid (`Retains`).
-/
import Mathlib.Data.Set.Insert
import PmmpThread.Proofs.Modcounts

namespace PmmpThread.Zend

variable {V : Type} {R : V → V → Prop}

/-- A walk that avoids `A` and never comes back. -/
inductive Walk (R : V → V → Prop) : Set V → V → V → Prop
  | here {A : Set V} {p : V} (hp : p ∉ A) : Walk R A p p
  | step {A : Set V} {p q r : V} (hp : p ∉ A) (hpq : R p q)
      (h : Walk R (insert p A) q r) : Walk R A p r

theorem Walk.start {A : Set V} {p q : V} (h : Walk R A p q) : p ∉ A := by
  cases h with
  | here h => exact h
  | step h _ _ => exact h

theorem Walk.extend {A : Set V} {p q r : V} (h : Walk R A p q)
    (hqr : R q r) (hr : r ∉ A) : Walk R A p r := by
  induction h with
  | @here A p hp =>
      by_cases hrp : r = p
      · rw [hrp]
        exact .here hp
      · refine .step hp hqr (.here ?_)
        rw [Set.mem_insert_iff]
        exact not_or.mpr ⟨hrp, hr⟩
  | @step A p q' q hp hpq _ ih =>
      by_cases hrp : r = p
      · rw [hrp]
        exact .here hp
      · refine .step hp hpq (ih hqr ?_)
        rw [Set.mem_insert_iff]
        exact not_or.mpr ⟨hrp, hr⟩

theorem walk_of_reach {p q : V} (h : Relation.ReflTransGen R p q) :
    Walk R ∅ p q := by
  induction h with
  | refl => exact .here (Set.notMem_empty p)
  | tail _ hqr ih => exact ih.extend hqr (Set.notMem_empty _)

end PmmpThread.Zend

namespace PmmpThread.Model.World

open Zend

variable {E : Engine} {t : ThreadId} {w₀ w w' : World}

-- ========================================================= what is cached

/-- The entry of `s` under `k` names a live object of the ts_obj `s'`. -/
def Names (w : World) (s : TsAddr) (k : Key) (s' : TsAddr) : Prop :=
  ∃ a b, w.entry s k = some (.object a b) ∧ w.tsOf a = some s'

/-- The local table has a connection to `s'` under `k`. -/
def Caches (w : World) (l : Local) (k : Key) (s' : TsAddr) : Prop :=
  ∃ o, l.cached k = some (.object o) ∧ w.tsOf o = some s'

/-- The entry of `s` under `k` names `s'`, and a connection of thread
`t` to `s` that is in sync has nothing else under it. -/
structure Follows (w : World) (t : ThreadId) (s : TsAddr) (k : Key)
    (s' : TsAddr) : Prop where
  names : Names w s k s'
  clean : ∀ c z, w.mem.get c = some z → z.owner = t → z.tsObj = some s →
    z.loc.modcount = w.modcountOf s → ∀ v, z.loc.cached k = some v →
    Caches w z.loc k s'

theorem Caches.extends {l : Local} {k : Key} {s' : TsAddr}
    (h : Caches w l k s') (hext : Extends w w') : Caches w' l k s' := by
  obtain ⟨o, ho, hs⟩ := h
  exact ⟨o, ho, hext.tsOf hs⟩

theorem Caches.of_eq {l l' : Local} {k : Key} {s' : TsAddr}
    (h : Caches w l k s') (hl : l'.cached k = l.cached k) :
    Caches w l' k s' := by
  obtain ⟨o, ho, hs⟩ := h
  exact ⟨o, hl.trans ho, hs⟩

theorem Names.storage {s : TsAddr} {k : Key} {s' : TsAddr}
    (h : Names w s k s') {o : TsObj} (ho : w.shared.get s = some o) :
    ∃ a b, o.props.hash.find k = some (.object a b)
      ∧ w.tsOf a = some s' := by
  obtain ⟨a, b, he, ha⟩ := h
  refine ⟨a, b, ?_, ha⟩
  unfold entry at he
  rw [ho] at he
  exact he

theorem Names.syncs {own : ThreadId → Prop} (hs : Skel w)
    (hsy : Syncs E t own w w') {s : TsAddr} {k : Key} {s' : TsAddr}
    (h : Names w s k s') : Names w' s k s' := by
  have hc := hs.connecting t
  obtain ⟨a, b, he, ha⟩ := h
  refine ⟨a, b, ?_, (hsy.extends hc).tsOf ha⟩
  rw [(entry_of_props (hsy.props hc) s k).1]
  exact he

/-- A sync keeps a connection to a live object. -/
theorem keepCached_of_tsOf (hs : Skel w) {a l : Addr} {b : Nat}
    {s' : TsAddr} (ha : w.tsOf a = some s') (hl : w.tsOf l = some s') :
    w.keepCached t (.object a b) (.object l) = true := by
  obtain ⟨z, hz, -⟩ := Option.bind_eq_some_iff.mp ha
  have hvalid : w.objectValid a = true :=
    decide_eq_true ((hs.objects a).mpr (by rw [hz]; rfl))
  show (a == l || (w.objectValid a && w.tsOf a == w.tsOf l)) = true
  rw [hvalid, ha, hl, BEq.rfl, Bool.and_self, Bool.or_true]

/-- What a sync keeps under an entry that names a live object is a
connection to it. -/
theorem tsOf_of_keepCached {a : Addr} {b : Nat} {v : Zval} {s' : TsAddr}
    (h : w.keepCached t (.object a b) v = true) (ha : w.tsOf a = some s') :
    ∃ l, v = .object l ∧ w.tsOf l = some s' := by
  cases v with
  | object l =>
      refine ⟨l, rfl, ?_⟩
      rcases Bool.or_eq_true_iff.mp h with h | h
      · rw [← beq_iff_eq.mp h]
        exact ha
      · rw [← beq_iff_eq.mp (Bool.and_eq_true_iff.mp h).2]
        exact ha
  | _ => cases h

/-- What an entry that names a live object is restored as is a connection
to it. -/
theorem restoreZval_names (hs : Skel w) {a l : Addr} {b : Nat} {s' : TsAddr}
    {u : World} (ha : w.tsOf a = some s')
    (h : w.restoreZval E t (.object a b) = (.value (.object l), u)) :
    u.tsOf l = some s' := by
  cases hcan : w.connectable E t a with
  | false =>
      rw [restoreZval_failed (objectConnect_failed (hs.connecting t) hcan)]
        at h
      cases h
  | true =>
      obtain ⟨l', hl, hls⟩ := objectConnect_ts hs ha hcan
      rcases hc : w.objectConnect E t a with ⟨q, v⟩
      rw [hc] at hl hls
      change q = .ok l' at hl
      rw [hl] at hc
      rw [restoreZval_ok hc] at h
      injection h with hr hu
      injection hr with hr
      injection hr with hr
      rw [← hr, ← hu]
      exact hls

/-- An entry that names a live object can be restored on a thread that can
connect to it. -/
theorem restoreZval_connects (hs : Skel w) {a : Addr} {b : Nat}
    {s' : TsAddr} (ha : w.tsOf a = some s')
    (hcan : w.connectable E t a = true) :
    ∃ l u, w.restoreZval E t (.object a b) = (.value (.object l), u) := by
  obtain ⟨l, hl, -⟩ := objectConnect_ts hs ha hcan
  rcases hc : w.objectConnect E t a with ⟨r, u⟩
  rw [hc] at hl
  change r = .ok l at hl
  rw [hl] at hc
  exact ⟨l, u, restoreZval_ok hc⟩

-- ============================================================ what stays

/-- What `w₀` names is still named. -/
def Stands (w₀ w : World) : Prop :=
  ∀ s k s', Names w₀ s k s' → Names w s k s'

theorem Stands.syncs {own : ThreadId → Prop} (h : Stands w₀ w)
    (hs : Skel w) (hsy : Syncs E t own w w') : Stands w₀ w' :=
  fun s k s' hn => (h s k s' hn).syncs hs hsy

/-- A connection that is in sync stays so, and connections to the
objects that `w₀` names stay cached. -/
def Retains (w₀ w w' : World) : Prop :=
  ∀ c z, w.mem.get c = some z →
    ∃ l, w'.mem.get c = some { z with loc := l }
      ∧ ∀ s, z.tsObj = some s →
        (z.loc.modcount = w.modcountOf s → l.modcount = w'.modcountOf s)
        ∧ ∀ k s', Names w₀ s k s' → Caches w z.loc k s' → Caches w' l k s'

theorem Retains.refl (w₀ w : World) : Retains w₀ w w :=
  fun _ z hz => ⟨z.loc, hz, fun _ _ => ⟨fun h => h, fun _ _ _ h => h⟩⟩

theorem Retains.trans {u : World} (h : Retains w₀ w u)
    (h' : Retains w₀ u w') : Retains w₀ w w' := by
  intro c z hz
  obtain ⟨l, hl, hk⟩ := h c z hz
  obtain ⟨l', hl', hk'⟩ := h' c _ hl
  refine ⟨l', hl', fun s hts => ?_⟩
  obtain ⟨h1, h2⟩ := hk s hts
  obtain ⟨h1', h2'⟩ := hk' s hts
  exact ⟨fun hm => h1' (h1 hm), fun k s' hn hc =>
    h2' k s' hn (h2 k s' hn hc)⟩

theorem Grow.retains (hg : Grow E t w w') : Retains w₀ w w' := by
  intro c z hz
  refine ⟨z.loc, hg.mem hz, fun s _ => ⟨fun hm => ?_, fun k s' _ hc =>
    hc.extends hg.extends⟩⟩
  rw [(entry_of_props hg.props s (.long 0)).2]
  exact hm

/-- A change to the local table of one connection. -/
theorem retains_modify {c : Addr} {x : Conn} (hx : w.conn c = some x)
    {f : ZObj → Local}
    (hm : (f x.z).modcount = x.z.loc.modcount
      ∨ (f x.z).modcount = x.o.props.modcount)
    (hk : ∀ k s', Names w₀ x.s k s' → Caches w x.z.loc k s' →
      Caches w (f x.z) k s') :
    Retains w₀ w { w with mem := w.mem.modify c fun z =>
      { z with loc := f z } } := by
  intro c' z hz
  obtain ⟨hzx, hts, ho⟩ := conn_eq_some.mp hx
  have hext := extends_modify_loc w c f
  by_cases hc : c' = c
  · rw [hc, hzx] at hz
    have hzz := Option.some.inj hz
    refine ⟨f z, ?_, fun s hs => ?_⟩
    · show (w.mem.modify c _).get c' = _
      rw [hc, Heap.get_modify_self, hzx, hzz]
      rfl
    · rw [← hzz] at hs ⊢
      rw [hts] at hs
      rw [← Option.some.inj hs]
      refine ⟨fun heq => ?_, fun k s' hn h => (hk k s' hn h).extends hext⟩
      show (f x.z).modcount = w.modcountOf x.s
      rcases hm with hm | hm
      · rw [hm, heq]
      · rw [hm, modcountOf_eq ho]
  · refine ⟨z.loc, ?_, fun s _ => ⟨fun h => h, fun k s' _ h =>
      h.extends hext⟩⟩
    show (w.mem.modify c _).get c' = _
    rw [Heap.get_modify_ne _ _ hc]
    exact hz

theorem retains_sync (hs : Skel w) (hn : Stands w₀ w) {c : Addr} {x : Conn}
    (hx : w.conn c = some x) :
    Retains w₀ w (w.setLocal c ((w.syncLocal x.z.owner x.o.props
      x.z.loc).initProps x.z.declared)) := by
  refine retains_modify hx (f := fun _ => _) (Or.inr ?_) fun k s' hk hc => ?_
  · rw [Local.modcount_initProps]
    exact Local.modcount_sync _ _ _ _
  · obtain ⟨a, b, hf, ha⟩ := (hn x.s k s' hk).storage (conn_eq_some.mp hx).2.2
    obtain ⟨o, ho, hos⟩ := hc
    refine ⟨o, ?_, hos⟩
    rw [Local.cached_initProps]
    exact cached_syncLocal_of_keep ho hf (keepCached_of_tsOf hs ha hos)

theorem retains_putLocal {c : Addr} {x : Conn} (hx : w.conn c = some x)
    {k : Key} {v : Zval} (hv : ∀ s', Names w₀ x.s k s' →
      ∃ o, v = .object o ∧ w.tsOf o = some s') :
    Retains w₀ w (w.putLocal c k v) := by
  refine retains_modify hx (f := fun z => z.loc.put z.declared k v)
    (Or.inl rfl) fun k' s' hn hc => ?_
  by_cases hk : k' = k
  · rw [hk] at hn ⊢
    obtain ⟨o, ho, hs⟩ := hv s' hn
    refine ⟨o, ?_, hs⟩
    rw [Local.cached_put, if_pos rfl, ho]
    rfl
  · refine hc.of_eq ?_
    rw [Local.cached_put, if_neg hk]

/-- What a full sync restores for an entry that names a live object is a
connection to it. -/
theorem restored_names (hs : Skel w) (hn : Stands w₀ w) {c : Addr}
    {x : Conn} {k : Key} {st : Storage} {r : Restored} {u₁ u₂ : World}
    {own : ThreadId → Prop} (hx : w.conn c = some x)
    (hst : x.o.props.hash.find k = some st)
    (hr : w.restoreZval E t st = (r, u₁)) (hne : SyncsValue st r)
    (hu₂ : Syncs E t own u₁ u₂) :
    ∀ s', Names w₀ x.s k s' → ∃ o, r.zval = .object o
      ∧ u₂.tsOf o = some s' := by
  intro s' hk
  obtain ⟨a, b, hf, ha⟩ := (hn x.s k s' hk).storage (conn_eq_some.mp hx).2.2
  rw [hst] at hf
  rw [Option.some.inj hf] at hr hne
  have hg := grow_of_restored hr (hs.connecting t)
  obtain ⟨l, rfl⟩ := hne.2 rfl
  have hls := restoreZval_names hs ha hr
  exact ⟨l, rfl, (hu₂.extends ((hs.grow hg).connecting t)).tsOf hls⟩

/-- A connection of the thread, in the middle of restoring one of its
entries. -/
theorem conn_restored {own : ThreadId → Prop} (hs : Skel w) {c : Addr}
    {x : Conn} {st : Storage} {r : Restored} {u₁ u₂ : World}
    (hx : w.conn c = some x) (hr : w.restoreZval E t st = (r, u₁))
    (hu₂ : Syncs E t own u₁ u₂) (hz : u₂.mem.get c = some x.z) :
    Skel u₁ ∧ Grow E t w u₁
      ∧ ∃ n, u₂.conn c = some ⟨x.z, x.s, { x.o with refcount := n }⟩ := by
  obtain ⟨-, hts, ho⟩ := conn_eq_some.mp hx
  have hg := grow_of_restored hr (hs.connecting t)
  have hs₁ := hs.grow hg
  obtain ⟨n, hn⟩ :=
    (hg.extends.trans (hu₂.extends (hs₁.connecting t))).shared ho
  exact ⟨hs₁, hg, n, conn_eq_some.mpr ⟨hz, hts, hn⟩⟩

theorem Syncs.retains {own : ThreadId → Prop} (hsy : Syncs E t own w w')
    (hs : Skel w) (hn : Stands w₀ w) : Retains w₀ w w' := by
  induction hsy with
  | refl => exact .refl w₀ _
  | grow hu hg ih => exact (ih hs hn).trans (Grow.retains (.single hg))
  | @sync w u c x hu hx ho ih =>
      exact (ih hs hn).trans
        (retains_sync (hs.syncs hu) (hn.syncs hs hu) hx)
  | @put w u u₁ u₂ c x k st r hu hx ho hst hcache hno hr hne hu₂ hz ih ih' =>
      have hsu := hs.syncs hu
      have hnu := hn.syncs hs hu
      obtain ⟨hs₁, hg, n, hx₂⟩ := conn_restored hsu hx hr hu₂ hz
      have hn₁ := hnu.syncs hsu (.of_grow hg : Syncs E t own u u₁)
      have hv := restored_names hsu hnu hx hst hr hne hu₂
      exact (((ih hs hn).trans (Grow.retains hg)).trans (ih' hs₁ hn₁)).trans
        (retains_putLocal hx₂ hv)

-- ======================================================= entries to follow

theorem Follows.grow {s : TsAddr} {k : Key} {s' : TsAddr} {a : ThreadId}
    (hs : Skel w) (h : Follows w t s k s') (hg : Grow E a w w') :
    Follows w' t s k s' where
  names := h.names.syncs hs (.of_grow hg : Syncs E a (fun _ => True) w w')
  clean c z hz ho hts hm v hv := by
    rcases hg.new hz with hz | ⟨-, hnew⟩
    · rw [(entry_of_props hg.props s k).2] at hm
      exact (h.clean c z hz ho hts hm v hv).extends hg.extends
    · rw [hnew.cached] at hv
      cases hv

/-- One local table changes. -/
theorem Follows.modify {s : TsAddr} {k : Key} {s' : TsAddr}
    (h : Follows w t s k s') {c : Addr} {x : Conn} (hx : w.conn c = some x)
    {f : ZObj → Local}
    (hf : x.s = s → (f x.z).modcount = x.o.props.modcount →
      ∀ v, (f x.z).cached k = some v →
        (x.z.loc.modcount = x.o.props.modcount ∧ x.z.loc.cached k = some v)
        ∨ ∃ o, v = .object o ∧ w.tsOf o = some s') :
    Follows { w with mem := w.mem.modify c fun z =>
      { z with loc := f z } } t s k s' where
  names := by
    obtain ⟨a, b, he, ha⟩ := h.names
    exact ⟨a, b, he, (extends_modify_loc w c f).tsOf ha⟩
  clean c' z hz ho hts hm v hv := by
    obtain ⟨hzx, htsx, hox⟩ := conn_eq_some.mp hx
    have hext := extends_modify_loc w c f
    change (w.mem.modify c _).get c' = some z at hz
    change z.loc.modcount = w.modcountOf s at hm
    by_cases hc : c' = c
    · rw [hc, Heap.get_modify_self, hzx] at hz
      replace hz := Option.some.inj hz
      rw [← hz] at ho hts hm hv ⊢
      have hss : x.s = s := Option.some.inj (htsx.symm.trans hts)
      rw [← hss, modcountOf_eq hox] at hm
      rcases hf hss hm v hv with ⟨hmx, hvx⟩ | ⟨o, hvo, hos⟩
      · rw [← modcountOf_eq hox, hss] at hmx
        obtain ⟨o, hoo, hos⟩ := h.clean c x.z hzx ho hts hmx v hvx
        rw [hvx] at hoo
        exact ⟨o, hv.trans hoo, hext.tsOf hos⟩
      · exact ⟨o, hvo ▸ hv, hext.tsOf hos⟩
    · rw [Heap.get_modify_ne _ _ hc] at hz
      exact (h.clean c' z hz ho hts hm v hv).extends hext

theorem Follows.sync {s : TsAddr} {k : Key} {s' : TsAddr}
    (h : Follows w t s k s') {c : Addr} {x : Conn}
    (hx : w.conn c = some x) :
    Follows (w.setLocal c ((w.syncLocal x.z.owner x.o.props
      x.z.loc).initProps x.z.declared)) t s k s' := by
  refine h.modify hx (f := fun _ => _) fun hss _ v hv => ?_
  rw [Local.cached_initProps, cached_syncLocal] at hv
  split at hv
  case isTrue hm => exact Or.inl ⟨hm, hv⟩
  case isFalse =>
    obtain ⟨a, b, hf, ha⟩ :=
      (hss ▸ h.names).storage (conn_eq_some.mp hx).2.2
    rw [hf] at hv
    exact Or.inr (tsOf_of_keepCached (Option.filter_eq_some_iff.mp hv).2 ha)

/-- An entry to follow is one all through a full sync. -/
theorem Follows.syncs {own : ThreadId → Prop} {s : TsAddr} {k : Key}
    {s' : TsAddr} (hs : Skel w) (h : Follows w t s k s')
    (hsy : Syncs E t own w w') : Follows w' t s k s' := by
  induction hsy with
  | refl => exact h
  | grow hu hg ih => exact (ih hs h).grow (hs.syncs hu) (.single hg)
  | sync hu hx ho ih => exact (ih hs h).sync hx
  | @put w u u₁ u₂ c x k' st r hu hx ho hst hcache hno hr hne hu₂ hz ih ih' =>
      have hsu := hs.syncs hu
      have hfu := ih hs h
      obtain ⟨hs₁, hg, n, hx₂⟩ := conn_restored hsu hx hr hu₂ hz
      have hv := restored_names hsu (fun _ _ _ h => h) hx hst hr hne hu₂
      refine (ih' hs₁ (hfu.grow hsu hg)).modify hx₂
        (f := fun z => z.loc.put z.declared k' r.zval)
        fun hss hm v hv' => ?_
      change (x.z.loc.put x.z.declared k' r.zval).cached k = some v at hv'
      rw [Local.cached_put] at hv'
      split at hv'
      case isTrue hk =>
        obtain ⟨o, hro, hos⟩ := hv s' (by
          rw [← hk, show x.s = s from hss]
          exact hfu.names)
        rw [hro] at hv'
        exact Or.inr ⟨o, (Option.some.inj hv').symm, hos⟩
      case isFalse => exact Or.inl ⟨hm, hv'⟩

-- ============================================================ completeness

/-- Thread `t` has a connection to `s` that caches what `w₀` has to
follow. -/
def Done (w₀ w : World) (t : ThreadId) (s : TsAddr) : Prop :=
  ∃ c z, w.mem.get c = some z ∧ z.owner = t ∧ z.tsObj = some s
    ∧ ∀ k s', Follows w₀ t s k s' → Caches w z.loc k s'

theorem Done.retains {s : TsAddr} (h : Done w₀ w t s)
    (hr : Retains w₀ w w') : Done w₀ w' t s := by
  obtain ⟨c, z, hz, ho, hts, hk⟩ := h
  obtain ⟨l, hl, hl'⟩ := hr c z hz
  exact ⟨c, _, hl, ho, hts, fun k s' hf =>
    (hl' s hts).2 k s' hf.names (hk k s' hf)⟩

/-- The loop goes on only if an object entry is restored as an object. -/
theorem fullSyncEntry_restores {recurse : World → Addr → Option World}
    {c a : Addr} {k : Key} {b : Nat}
    (hc : ((w.mem.get c).bind fun z => z.loc.cached k) = none)
    (h : fullSyncEntry E t recurse c w (k, .object a b) = some w') :
    ∃ l u, w.restoreZval E t (.object a b) = (.value (.object l), u) := by
  rcases hcon : w.objectConnect E t a with ⟨r, u⟩
  cases r with
  | ok l => exact ⟨l, u, restoreZval_ok hcon⟩
  | _ =>
      unfold fullSyncEntry at h
      simp only [hc, restoreZval, hcon] at h
      cases h

/-- One element of the loop: an entry to follow is cached afterwards,
and the recursion went to the object it names. -/
theorem fullSyncEntry_done {recurse : World → Addr → Option World}
    {c : Addr} {x : Conn} {k : Key} {st : Storage} {s' : TsAddr}
    {P : World → Prop} (hs : Skel w) (hown : OwnOf w t)
    (hi : w.frame t = .idle) (hn : Stands w₀ w) (hx : w.conn c = some x)
    (ho : x.z.owner = t) (hm : x.z.loc.modcount = x.o.props.modcount)
    (hfol : Follows w t x.s k s') (hst : x.o.props.hash.find k = some st)
    (hrec : ∀ {u l u'}, Syncs E t (· = t) w u → Held u t (.object l) →
      u.tsOf l = some s' → recurse u l = some u' →
      Syncs E t (· = t) u u' ∧ Leaves [c] u u' ∧ P u')
    (hP : ∀ {u u'}, P u → Retains w₀ u u' → P u')
    (h : fullSyncEntry E t recurse c w (k, st) = some w') :
    P w' ∧ ∃ l, w'.mem.get c = some { x.z with loc := l }
      ∧ Caches w' l k s' := by
  obtain ⟨hz, hts, hox⟩ := conn_eq_some.mp hx
  obtain ⟨a, b, hf, ha⟩ := hfol.names.storage hox
  rw [hst] at hf
  have hst' := Option.some.inj hf
  cases hc : x.z.loc.cached k with
  | some v =>
      obtain ⟨o, hco, hos⟩ := hfol.clean c x.z hz ho hts
        (by rw [modcountOf_eq hox]; exact hm) v hc
      unfold fullSyncEntry at h
      rw [hz, Option.bind_some, hco, hst'] at h
      obtain ⟨h1, h2, h3⟩ := hrec (.refl w)
        (hown.cached hz ho (by rw [hi]; exact List.not_mem_nil) hco).1 hos h
      refine ⟨h3, x.z.loc, h2 c List.mem_cons_self _ hz, o, hco, ?_⟩
      exact (h1.extends (hs.connecting t)).tsOf hos
  | none =>
      have hcz : ((w.mem.get c).bind fun z => z.loc.cached k) = none := by
        rw [hz]
        exact hc
      obtain ⟨l, u, hr'⟩ := fullSyncEntry_restores hcz (hst' ▸ h)
      have hr : w.restoreZval E t st = (.value (.object l), u) := hst' ▸ hr'
      have hls := restoreZval_names hs ha hr'
      have hg := grow_of_restored hr (hs.connecting t)
      have hheld : Held u t (.object l) :=
        restoreZval_held hs (fun _ _ h => by cases h) hr'
      rw [hst', fullSyncEntry_restored hcz hr'] at h
      obtain ⟨u', hu', h⟩ := Option.map_eq_some_iff.mp h
      obtain ⟨h1, h2, h3⟩ := hrec (.of_grow hg) hheld hls hu'
      have hz' := h2 c List.mem_cons_self _ (hg.mem hz)
      obtain ⟨-, -, n, hx'⟩ := conn_restored hs hx hr h1 hz'
      have hv := restored_names hs hn hx hst hr
        ⟨(by intro h; cases h), fun _ => ⟨l, rfl⟩⟩ h1
      rw [← h]
      refine ⟨hP h3 (retains_putLocal hx' hv), x.z.loc.put x.z.declared k
        (.object l), ?_, l, ?_, ?_⟩
      · show (u'.mem.modify c _).get c = _
        rw [Heap.get_modify_self, hz']
        rfl
      · rw [Local.cached_put, if_pos rfl]
        rfl
      · refine (extends_modify_loc u' c fun z => _).tsOf ?_
        exact (h1.extends ((hs.grow hg).connecting t)).tsOf hls

/-- A full sync of `c` that is not on the stack: it syncs `c`, each entry
has its turn in the loop, and so has each object in the gc queue. -/
theorem fullSync_visits {fuel : Nat} {protect : List Addr} {c : Addr}
    (hI : Skel w ∧ OwnOf w t ∧ w.frame t = .idle)
    (hheld : Held w t (.object c)) (hcp : c ∉ protect)
    (h : fullSync E t (fuel + 1) protect w c = some w') :
    ∃ x, w.conn c = some x ∧ x.z.owner = t
      ∧ Syncs E t (· = t) w (w.setLocal c ((w.syncLocal x.z.owner x.o.props
        x.z.loc).initProps x.z.declared))
      ∧ Syncs E t (· = t) (w.setLocal c ((w.syncLocal x.z.owner x.o.props
        x.z.loc).initProps x.z.declared)) w'
      ∧ (∀ e ∈ x.o.props.hash.entries, ∃ u u',
        Syncs E t (· = t) (w.setLocal c ((w.syncLocal x.z.owner x.o.props
          x.z.loc).initProps x.z.declared)) u
        ∧ fullSyncEntry E t (fullSync E t fuel (c :: protect)) c u e = some u'
        ∧ Syncs E t (· = t) u u' ∧ Syncs E t (· = t) u' w')
      ∧ ∀ l ∈ x.z.gc, ∃ u u', Syncs E t (· = t) w u
        ∧ fullSync E t fuel (c :: protect) u l = some u'
        ∧ Syncs E t (· = t) u' w' := by
  unfold fullSync at h
  rw [if_neg hcp] at h
  obtain ⟨x, hx, h⟩ := Option.bind_eq_some_iff.mp h
  obtain ⟨v, hv, h⟩ := Option.bind_eq_some_iff.mp h
  have hz := (conn_eq_some.mp hx).1
  have hstay : ∀ {u}, Syncs E t (· = t) w u →
      Skel u ∧ OwnOf u t ∧ u.frame t = .idle :=
    fun hu => visits_own.syncs hI hu
  have ho : x.z.owner = t := visits_own.owner (E := E) hI hheld hx
  have h0 : Syncs E t (· = t) w (w.setLocal c ((w.syncLocal x.z.owner
      x.o.props x.z.loc).initProps x.z.declared)) :=
    .sync (.refl w) hx ho
  -- the loop over the entries, then the one over the gc queue
  obtain ⟨hwv, hall, hvisit⟩ := foldlM_visits
    (P := Syncs E t (· = t) w) (R := Syncs E t (· = t))
    (fun {u} _ => .refl u) .trans _
    (fun {u e u'} he hu hfu => by
      obtain ⟨l, n, hxu⟩ := (hu.extends (hI.1.connecting t)).conn hx
      have huu := (fullSyncEntry_syncs visits_own (hstay hu)
        (visits_own.mono hI hheld hu) hcp (fun hI hV hr =>
          fullSync_syncs visits_own fuel hI hV hr) hxu
        (HashTable.find_eq_some_iff.mpr he) hfu).1
      exact ⟨hu.trans huu, huu⟩) h0 hv
  obtain ⟨-, hgc, hqueue⟩ := foldlM_visits
    (P := Syncs E t (· = t) w) (R := Syncs E t (· = t))
    (fun {u} _ => .refl u) .trans _
    (fun {u l u'} hl hu hfu => by
      have hVl := visits_own.mono hI
        (visits_own.gc (E := E) hI hheld hz hl) hu
      have huu := (fullSync_syncs visits_own fuel (hstay hu) hVl hfu).1
      exact ⟨hu.trans huu, huu⟩) hwv h
  refine ⟨x, hx, ho, h0, hall.trans hgc, fun e he => ?_, fun l hl => ?_⟩
  · obtain ⟨u, u', -, hu, hfu, huu, hu'⟩ := hvisit e he
    exact ⟨u, u', hu, hfu, huu, hu'.trans hgc⟩
  · obtain ⟨u, u', hu, -, hfu, -, hu'⟩ := hqueue l hl
    exact ⟨u, u', hu, hfu, hu'⟩

/-- In the loop the connection is in sync. -/
theorem inSync_of_retains {u : World} {c : Addr} {x : Conn}
    (hx : w.conn c = some x)
    (hr : Retains w₀ (w.setLocal c ((w.syncLocal x.z.owner x.o.props
      x.z.loc).initProps x.z.declared)) u) (hext : Extends w u) :
    ∃ l n, u.conn c
        = some ⟨{ x.z with loc := l }, x.s, { x.o with refcount := n }⟩
      ∧ l.modcount = x.o.props.modcount := by
  obtain ⟨hz, hts, ho⟩ := conn_eq_some.mp hx
  obtain ⟨l, n, hxu⟩ := hext.conn hx
  refine ⟨l, n, hxu, ?_⟩
  obtain ⟨l', hl', hk⟩ := hr c _ (by
    show (w.mem.modify c _).get c = _
    rw [Heap.get_modify_self, hz]
    rfl)
  obtain ⟨hzu, -, hou⟩ := conn_eq_some.mp hxu
  rw [hzu] at hl'
  injection hl' with hl'
  injection hl' with _ _ hl'
  have hm := (hk x.s hts).1 (by
    show (Local.initProps _ _).modcount = w.modcountOf x.s
    rw [Local.modcount_initProps, modcountOf_eq ho]
    exact Local.modcount_sync _ _ _ _)
  rw [modcountOf_eq hou] at hm
  rw [hl']
  exact hm

section Join

variable (hs : Skel w₀) (hown : OwnOf w₀ t) (hi : w₀.frame t = .idle)

include hs hown hi

/-- A full sync of `c` reaches what a walk of followed entries does that
stays off the objects on the stack. -/
theorem fullSync_done (fuel : Nat) :
    ∀ {protect : List Addr} {A : Set TsAddr} {w w' : World} {c : Addr}
      {s p : TsAddr}, Syncs E t (· = t) w₀ w → Held w t (.object c) →
      w.tsOf c = some s → (∀ c' ∈ protect, ∃ s' ∈ A, w.tsOf c' = some s') →
      fullSync E t fuel protect w c = some w' →
      Walk (fun s s' => ∃ k, Follows w₀ t s k s') A s p →
      Done w₀ w' t p := by
  have hI : ∀ {u}, Syncs E t (· = t) w₀ u →
      Skel u ∧ OwnOf u t ∧ u.frame t = .idle :=
    fun hu => visits_own.syncs ⟨hs, hown, hi⟩ hu
  have hstands : ∀ {u}, Syncs E t (· = t) w₀ u → Stands w₀ u :=
    fun hu => Stands.syncs (fun _ _ _ h => h) hs hu
  have hret : ∀ {u u'}, Syncs E t (· = t) w₀ u → Syncs E t (· = t) u u' →
      Retains w₀ u u' := fun hu huu => huu.retains (hI hu).1 (hstands hu)
  induction fuel with
  | zero => intro protect A w w' c s p _ _ _ _ h; cases h
  | succ fuel ih =>
      intro protect A w w' c s p hw hheld hts hprot h hwalk
      have hsA : s ∉ A := hwalk.start
      have hcp : c ∉ protect := by
        intro hc
        obtain ⟨s', hs', hts'⟩ := hprot c hc
        rw [hts] at hts'
        exact hsA (Option.some.inj hts' ▸ hs')
      obtain ⟨x, hx, ho, h0, hend, hvisit, -⟩ :=
        fullSync_visits (hI hw) hheld hcp h
      have hww := h0.trans hend
      obtain ⟨hz, htsx, hox⟩ := conn_eq_some.mp hx
      have hxs : x.s = s :=
        Option.some.inj (htsx.symm.trans ((tsOf_of_get hz).symm.trans hts))
      have hstack : ∀ {u : World}, Syncs E t (· = t) w u →
          ∀ c' ∈ c :: protect, ∃ s' ∈ insert s A, u.tsOf c' = some s' := by
        intro u hu c' hc'
        have hext := hu.extends ((hI hw).1.connecting t)
        rcases List.mem_cons.mp hc' with hc' | hc'
        · exact ⟨s, Set.mem_insert s A, hc' ▸ hext.tsOf hts⟩
        · obtain ⟨s', hs', hts'⟩ := hprot c' hc'
          exact ⟨s', Set.mem_insert_of_mem s hs', hext.tsOf hts'⟩
      -- what the loop does for one entry to follow
      have hentry : ∀ {k s'}, Follows w₀ t s k s' →
          (∀ {p'}, Walk (fun s s' => ∃ k, Follows w₀ t s k s') (insert s A)
            s' p' → Done w₀ w' t p')
          ∧ ∃ l, w'.mem.get c = some { x.z with loc := l }
            ∧ Caches w' l k s' := by
        intro k s' hfol
        obtain ⟨a, b, hfind, -⟩ :=
          (hxs ▸ (hfol.syncs hs hw).names : Names w x.s k s').storage hox
        obtain ⟨u, u', hu, hfu, huu, hu'⟩ :=
          hvisit (k, .object a b) (HashTable.find_eq_some_iff.mp hfind)
        have hwu := hw.trans (h0.trans hu)
        obtain ⟨l, n, hxu, hml⟩ := inSync_of_retains hx
          (hret (hw.trans h0) hu)
          ((h0.trans hu).extends ((hI hw).1.connecting t))
        obtain ⟨hsu, hownu, hiu⟩ := hI hwu
        obtain ⟨hP, l', hl', hc'⟩ := fullSyncEntry_done
          (P := fun v => ∀ p', Walk (fun s s' => ∃ k, Follows w₀ t s k s')
            (insert s A) s' p' → Done w₀ v t p')
          hsu hownu hiu (hstands hwu) hxu ho hml
          (hxs.symm ▸ hfol.syncs hs hwu) hfind
          (fun {v o v'} huv hvo hos hr => by
            have hwv := hwu.trans huv
            obtain ⟨h1, h2⟩ :=
              fullSync_syncs visits_own fuel (hI hwv) hvo hr
            refine ⟨h1, fun c' hc' => h2 c' ?_, fun p' hp' =>
              ih hwv hvo hos (hstack ((h0.trans hu).trans huv)) hr hp'⟩
            rw [List.mem_singleton.mp hc']
            exact List.mem_cons_self)
          (fun {u u'} hd hr p' hp' => (hd p' hp').retains hr) hfu
        have hu0 := hwu.trans huu
        obtain ⟨l'', hl'', hk⟩ := hret hu0 hu' c _ hl'
        exact ⟨fun {p'} hp' => (hP p' hp').retains (hret hu0 hu'), l'', hl'',
          (hk s (hxs ▸ htsx)).2 k s' hfol.names hc'⟩
      obtain ⟨l, hl⟩ := (hww.extends ((hI hw).1.connecting t)).mem hz
      cases hwalk with
      | here _ =>
          refine ⟨c, _, hl, ho, hxs ▸ htsx, fun k s' hfol => ?_⟩
          obtain ⟨-, l', hl', hc'⟩ := hentry hfol
          rw [hl] at hl'
          injection hl' with hl'
          injection hl' with _ _ hl'
          exact hl' ▸ hc'
      | step _ hpq hwalk =>
          obtain ⟨k, hfol⟩ := hpq
          exact (hentry hfol).1 hwalk

/-- `pmmpthread_join` reaches everything that the thread object or the
shared globals do. -/
theorem joinSync_done {fuel : Nat} {x : Addr} {s p : TsAddr}
    (hheld : Held w₀ t (.object x))
    (hroot : w₀.tsOf x = some s
      ∨ ∃ g, w₀.threadSharedGlobals t = some g ∧ w₀.tsOf g = some s)
    (hreach : Relation.ReflTransGen
      (fun s s' => ∃ k, Follows w₀ t s k s') s p)
    (h : joinSync E fuel w₀ t x = some w') : Done w₀ w' t p := by
  have hI : ∀ {u}, Syncs E t (· = t) w₀ u →
      Skel u ∧ OwnOf u t ∧ u.frame t = .idle :=
    fun hu => visits_own.syncs ⟨hs, hown, hi⟩ hu
  have hret : ∀ {u u'}, Syncs E t (· = t) w₀ u → Syncs E t (· = t) u u' →
      Retains w₀ u u' := fun hu huu => huu.retains (hI hu).1
    (Stands.syncs (fun _ _ _ h => h) hs hu)
  have hwalk := walk_of_reach hreach
  unfold joinSync at h
  obtain ⟨u, hu, h⟩ := Option.bind_eq_some_iff.mp h
  obtain ⟨v, hv, h⟩ := Option.bind_eq_some_iff.mp h
  obtain ⟨z, hz, hv⟩ := Option.bind_eq_some_iff.mp hv
  obtain ⟨g, hg, h⟩ := Option.bind_eq_some_iff.mp h
  have h1 := (fullSync_syncs visits_own fuel ⟨hs, hown, hi⟩ hheld hu).1
  have h2 := foldlM_induct (P := fun u' => Syncs E t (· = t) u u') _
    (fun {u' l u''} hl hp hfu => by
      have hVl := visits_own.mono (hI h1) (visits_own.gc (E := E) (hI h1)
        (visits_own.mono ⟨hs, hown, hi⟩ hheld h1) hz hl) hp
      exact hp.trans (fullSync_syncs visits_own fuel
        (hI (h1.trans hp)) hVl hfu).1) (.refl u) hv
  have h12 := h1.trans h2
  have hext := h12.extends (hs.connecting t)
  rw [hext.globals] at hg
  have hheldg := Held.extends hext (hown.globals hg)
  have h3 := (fullSync_syncs visits_own fuel (hI h12) hheldg h).1
  rcases hroot with hts | ⟨g', hg', hts⟩
  · have hd := fullSync_done hs hown hi fuel (.refl w₀) hheld hts
      (fun _ hc => by cases hc) hu hwalk
    exact hd.retains (hret h1 (h2.trans h3))
  · rw [hg] at hg'
    rw [← Option.some.inj hg'] at hts
    exact fullSync_done hs hown hi fuel h12 hheldg (hext.tsOf hts)
      (fun _ hc => by cases hc) h hwalk

end Join

end PmmpThread.Model.World
