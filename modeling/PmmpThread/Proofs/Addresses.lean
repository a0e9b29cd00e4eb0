/-
Stored object references. A `STORE_TYPE_THREADSAFE_OBJECT` storage holds
the raw address of the zend object that was written, and
`pmmpthread_globals_object_valid` asks only whether that address is in
the objects table. The answer is right as long as the address still
belongs to the object that was written (`AddrInv`), which every step
keeps unless it hands the address out again while the storage is still
there (`FreshStep`).
-/
import PmmpThread.Proofs.Views

namespace PmmpThread.Model.World

open Zend

variable {E : Engine} {t : ThreadId} {w w' : World}

/-- An address that a stored reference names is handed out by the step
to no object but a connection to the object that was written. -/
def FreshStep (w w' : World) : Prop :=
  ∀ a, w.mem.get a = none → (w'.mem.get a).isSome = true →
    ∀ s k b, w.entry s k = some (.object a b) → w'.birthOf a = some b

/-- A reference names an address that was handed out, and if that
address is live it belongs to the object that was written. -/
structure AddrInv (w : World) : Prop where
  past : ∀ {s k a b}, w.entry s k = some (.object a b) → a ∈ w.mem.past
  birth : ∀ {s k a b}, w.entry s k = some (.object a b) →
    (w.mem.get a).isSome = true → w.birthOf a = some b

theorem addrInv_init : AddrInv init :=
  ⟨fun h => (nomatch h), fun h => (nomatch h)⟩

theorem live_of_birthOf {a : Addr} {b : Nat} (h : w.birthOf a = some b) :
    (w.mem.get a).isSome = true := by
  obtain ⟨o, ho, -⟩ := Option.map_eq_some_iff.mp h
  obtain ⟨s, hs, -⟩ := Option.bind_eq_some_iff.mp ho
  obtain ⟨z, hz, -⟩ := Option.bind_eq_some_iff.mp hs
  rw [hz]
  rfl

/-- The invariant passes to a world whose references come from the old
one or name what they should, and whose old objects are the same. -/
theorem AddrInv.of_entries (h : AddrInv w) (hfresh : FreshStep w w')
    (hpast : ∀ {a}, a ∈ w.mem.past → a ∈ w'.mem.past)
    (hent : ∀ {s k a b}, w'.entry s k = some (.object a b) →
      (∃ s' k', w.entry s' k' = some (.object a b)) ∨ w.birthOf a = some b)
    (hbirth : ∀ {a b}, w.birthOf a = some b →
      (w'.mem.get a).isSome = true → w'.birthOf a = some b) :
    AddrInv w' := by
  refine ⟨fun {s k a b} he => ?_, fun {s k a b} he hlive => ?_⟩
  · rcases hent he with ⟨s', k', he'⟩ | hb
    · exact hpast (h.past he')
    · obtain ⟨z, hz⟩ := Option.isSome_iff_exists.mp (live_of_birthOf hb)
      exact hpast (Heap.mem_past_of_get hz)
  · rcases hent he with ⟨s', k', he'⟩ | hb
    · cases ha : w.mem.get a with
      | none => exact hfresh a ha hlive s' k' b he'
      | some z => exact hbirth (h.birth he' (by rw [ha]; rfl)) hlive
    · exact hbirth hb hlive

/-- Additions hand out addresses and change nothing else. -/
theorem AddrInv.of_extends (h : AddrInv w) (hext : Extends w w')
    (hfresh : FreshStep w w')
    (hprops : ∀ s, (w'.shared.get s).map TsObj.props
      = (w.shared.get s).map TsObj.props) : AddrInv w' :=
  h.of_entries hfresh hext.past
    (fun {s k _ _} he => Or.inl ⟨s, k, (entry_of_props hprops s k).1 ▸ he⟩)
    fun hb _ => hext.birthOf hb

/-- Replacing one store, when its references come from the old world. -/
theorem AddrInv.commit (h : AddrInv w) {c : Addr} {s : TsAddr}
    {r : Local × Store Storage} {o : TsObj} (ho : w.shared.get s = some o)
    (hent : ∀ {k a b}, r.2.hash.find k = some (.object a b) →
      (∃ s' k', w.entry s' k' = some (.object a b)) ∨ w.birthOf a = some b) :
    AddrInv (w.commit c s r) := by
  refine h.of_entries (fun a ha hlive => ?_) (fun ha => ha)
    (fun {s' k a b} he => ?_)
    fun {a b} hb _ => by rw [birthOf_commit]; exact hb
  · exfalso
    rw [mem_commit] at hlive
    split at hlive
    · rw [ha] at hlive
      cases hlive
    · rw [ha] at hlive
      cases hlive
  · rw [entry_commit ho] at he
    split at he
    · exact hent he
    · exact Or.inl ⟨s', k, he⟩

/-- The invariant reads entries, births and liveness only. -/
theorem AddrInv.of_views (h : AddrInv w)
    (hent : ∀ s k, w'.entry s k = w.entry s k)
    (hbirth : ∀ a, w'.birthOf a = w.birthOf a)
    (hlive : ∀ a, (w'.mem.get a).isSome = (w.mem.get a).isSome)
    (hpast : w'.mem.past = w.mem.past) : AddrInv w' := by
  refine ⟨fun {s k a b} he => ?_, fun {s k a b} he ha => ?_⟩
  · rw [hpast]
    exact h.past (hent s k ▸ he)
  · rw [hbirth]
    exact h.birth (hent s k ▸ he) (hlive a ▸ ha)

theorem AddrInv.modify (h : AddrInv w) (c : Addr) {f : ZObj → ZObj}
    (hf : ∀ z, (f z).tsObj = z.tsObj) :
    AddrInv { w with mem := w.mem.modify c f } :=
  h.of_views (fun _ _ => rfl) (fun a => birthOf_modify w c a hf)
    (fun _ => Heap.get_modify_isSome _ _ _ _) rfl

theorem AddrInv.setLocal (h : AddrInv w) (c : Addr) (l : Local) :
    AddrInv (w.setLocal c l) := h.modify c fun _ => rfl

theorem AddrInv.setFrame (h : AddrInv w) (f : Frame) :
    AddrInv (w.setFrame t f) := ⟨h.past, h.birth⟩

/-- The storage of an object value names the object. -/
theorem saveZval_object {source : ThreadId} {v : Zval} {a : Addr} {b : Nat}
    (h : w.saveZval source v = some (.object a b)) : w.birthOf a = some b := by
  cases v with
  | object a' =>
      obtain ⟨b', hb', heq⟩ := Option.map_eq_some_iff.mp h
      injection heq with ha hb
      rw [← ha, ← hb]
      exact hb'
  | closure p =>
      obtain ⟨cl, -, hcl⟩ := Option.bind_eq_some_iff.mp h
      split at hcl
      · cases hcl
      · cases hcl
  | string p =>
      obtain ⟨s, -, heq⟩ := Option.map_eq_some_iff.mp h
      cases heq
  | _ => cases h

theorem AddrInv.write (h : AddrInv w) {c : Addr} {x : Conn}
    (hx : w.conn c = some x) {key : Option Key} {v : Zval} {st : Storage}
    (hst : w.saveZval x.z.owner v = some st) :
    AddrInv (w.commit c x.s
      (w.writeStore x.z.owner x.z.loc x.o.props key st).2) := by
  obtain ⟨-, -, ho⟩ := conn_eq_some.mp hx
  refine h.commit ho fun {k a b} he => ?_
  rw [find_writeStore] at he
  split at he
  · rw [Option.some.inj he] at hst
    exact Or.inr (saveZval_object hst)
  · rw [← entry_eq ho k] at he
    exact Or.inl ⟨x.s, k, he⟩

/-- A new ts_obj is behind no reference. -/
theorem AddrInv.tsObjectCtor (hs : Skel w) (h : AddrInv w) {a : Addr}
    {z : ZObj} {scope : Scope} (hz : w.mem.get a = some z)
    (hts : z.tsObj = none) : AddrInv (w.tsObjectCtor E t a scope) := by
  have hnone : w.birthOf a = none := by
    unfold birthOf tsOf
    rw [hz]
    simp only [Option.bind_some, hts, Option.bind_none, Option.map_none]
  have hent : ∀ {s k b n},
      (w.tsObjectCtor E t a scope).entry s k = some (.object b n) →
      w.entry s k = some (.object b n) := by
    intro s k b n he
    unfold entry at he ⊢
    change ((w.shared.place _ _).get s).bind _ = _ at he
    rw [Heap.get_place] at he
    split at he
    · simp only [Option.bind_some, Store.init, HashTable.find_init] at he
      cases he
    · exact he
  refine ⟨fun he => h.past (hent he), fun {s k b n} he hlive => ?_⟩
  have hlive' : (w.mem.get b).isSome = true :=
    (Heap.get_modify_isSome _ _ _ _).symm.trans hlive
  have hb := h.birth (hent he) hlive'
  have hne : b ≠ a := by
    intro hba
    rw [hba, hnone] at hb
    cases hb
  obtain ⟨zb, hzb⟩ := Option.isSome_iff_exists.mp hlive'
  unfold birthOf tsOf at hb ⊢
  change Option.map _ ((((w.mem.modify a _).get b).bind _).bind
    (w.shared.place _ _).get) = _
  rw [Heap.get_modify_ne _ _ hne]
  rw [hzb] at hb ⊢
  cases hsb : zb.tsObj with
  | none =>
      simp only [Option.bind_some, hsb, Option.bind_none] at hb
      cases hb
  | some s' =>
      obtain ⟨o, ho⟩ := hs.tsLive hzb hsb
      have hss : s' ≠ w.shared.next E.shared := Heap.ne_next_of_get ho
      simp only [Option.bind_some, hsb] at hb ⊢
      rw [Heap.get_place, if_neg hss]
      exact hb

theorem AddrInv.registerObject (h : AddrInv w) (a : Addr) :
    AddrInv (w.registerObject t a) := by
  unfold World.registerObject
  split
  · exact h
  · exact h.of_views (fun _ _ => rfl)
      (fun b => birthOf_modify w a b fun _ => rfl)
      (fun _ => Heap.get_modify_isSome _ _ _ _) rfl

theorem AddrInv.baseCtor (hs : Skel w) (h : AddrInv w) {a : Addr}
    {scope : Scope} {defaults : List (List Default)}
    (hf : w.frame t = .allocated a scope defaults)
    (hu : w.baseCtor E t a scope defaults = some w') : AddrInv w' := by
  have hfo := hs.frames t
  rw [hf] at hfo
  obtain ⟨z, hz, -, hts⟩ := hfo
  unfold World.baseCtor at hu
  rw [hs.connecting t] at hu
  rw [← Option.some.inj hu]
  refine AddrInv.registerObject ?_ a
  refine writePropertyDefaults_induct (P := AddrInv) defaults ?_
    (h.tsObjectCtor hs hz hts)
  intro u k v r _ hu hr
  obtain ⟨x, st, hx, hst, rfl⟩ := writeLocked_some hr
  exact (hu.write hx hst).modify a fun _ => rfl

/-- The references that a free leaves in the shared tables. -/
theorem baseFree_shared (hs : Skel w) {a : Addr} {batch : List Addr}
    (hf : w.frame t = .freeing (a :: batch))
    (hu : w.baseFree t a = some w') {s' : TsAddr} {o' : TsObj}
    (ho' : w'.shared.get s' = some o') :
    ∃ o'', w.shared.get s' = some o'' ∧ o''.birth = o'.birth
      ∧ ∀ k a b, o'.props.hash.find k = some (.object a b) →
        o''.props.hash.find k = some (.object a b) := by
  obtain ⟨s, htsOf, hres, o, ho⟩ := hs.freeing hf
  rcases baseFree_cases htsOf ho hres hu with ⟨-, rfl⟩ | ⟨-, -, rfl⟩
  · change (w.shared.free s).get s' = some o' at ho'
    rw [Heap.get_free] at ho'
    split at ho'
    · cases ho'
    · exact ⟨o', ho', rfl, fun _ _ _ hk => hk⟩
  · change (w.persisted t s o).get s' = some o' at ho'
    rw [get_persisted ho] at ho'
    split at ho'
    case isTrue hss =>
      rw [← Option.some.inj ho', hss]
      refine ⟨o, ho, rfl, fun k a b hk => ?_⟩
      simp only [HashTable.find_mapVal] at hk
      obtain ⟨st, hst, hp⟩ := Option.map_eq_some_iff.mp hk
      rw [hst]
      cases st with
      | stringPtr owner p bytes =>
          simp only [persistStorage] at hp
          split at hp
          · split at hp <;> cases hp
          · cases hp
      | _ => exact congrArg some hp
    · exact ⟨o', ho', rfl, fun _ _ _ hk => hk⟩

/-- A free leaves the references, persisted, and the other objects. -/
theorem AddrInv.baseFree (hs : Skel w) (h : AddrInv w)
    (hlive' : ∀ {a z s}, w'.mem.get a = some z → z.tsObj = some s →
      ∃ o, w'.shared.get s = some o) {a : Addr} {batch : List Addr}
    (hf : w.frame t = .freeing (a :: batch))
    (hu : w.baseFree t a = some w') : AddrInv w' := by
  obtain ⟨s, htsOf, hres, o, ho⟩ := hs.freeing hf
  have hshared : ∀ {s' o'}, w'.shared.get s' = some o' →
      ∃ o'', w.shared.get s' = some o'' ∧ o''.birth = o'.birth
        ∧ ∀ k a b, o'.props.hash.find k = some (.object a b) →
          o''.props.hash.find k = some (.object a b) :=
    fun ho' => baseFree_shared hs hf hu ho'
  have hmem : ∀ {b zb}, w'.mem.get b = some zb → w.mem.get b = some zb := by
    intro b zb hb
    have hfree : (w.mem.free a).get b = some zb := by
      rcases baseFree_cases htsOf ho hres hu with ⟨-, rfl⟩ | ⟨-, -, rfl⟩
      · exact hb
      · exact hb
    rw [Heap.get_free] at hfree
    split at hfree
    · cases hfree
    · exact hfree
  have hpast : w'.mem.past = w.mem.past := by
    rcases baseFree_cases htsOf ho hres hu with ⟨-, rfl⟩ | ⟨-, -, rfl⟩
    · rfl
    · rfl
  refine h.of_entries (fun b hb hlive => ?_) (fun hb => hpast ▸ hb)
    (fun {s' k b n} he => ?_) fun {b n} hb hlive => ?_
  · obtain ⟨zb, hzb⟩ := Option.isSome_iff_exists.mp hlive
    rw [hmem hzb] at hb
    cases hb
  · obtain ⟨o', ho', hk⟩ := entry_some he
    obtain ⟨o'', ho'', -, hkk⟩ := hshared ho'
    exact Or.inl ⟨s', k, (entry_eq ho'' k).trans (hkk _ _ _ hk)⟩
  · obtain ⟨zb, hzb⟩ := Option.isSome_iff_exists.mp hlive
    unfold birthOf tsOf at hb ⊢
    rw [hmem hzb] at hb
    rw [hzb]
    cases hsb : zb.tsObj with
    | none =>
        simp only [Option.bind_some, hsb, Option.bind_none] at hb
        cases hb
    | some s' =>
        obtain ⟨o', ho'⟩ := hlive' hzb hsb
        obtain ⟨o'', ho'', hbirth, -⟩ := hshared ho'
        simp only [Option.bind_some, hsb, ho', ho''] at hb ⊢
        rw [← hb]
        exact congrArg some hbirth.symm

-- ========================================================== every step

/-- Freshness of a step, read off a part of it. -/
theorem FreshStep.of_views {u u' : World} (h : FreshStep w w')
    (hent : ∀ s k, u.entry s k = w.entry s k)
    (hlive : ∀ a, (u.mem.get a).isSome = (w.mem.get a).isSome)
    (hlive' : ∀ a, (u'.mem.get a).isSome = (w'.mem.get a).isSome)
    (hbirth' : ∀ a, u'.birthOf a = w'.birthOf a) : FreshStep u u' := by
  intro a ha ha' s k b he
  rw [hbirth']
  refine h a ?_ (hlive' a ▸ ha') s k b (hent s k ▸ he)
  have := hlive a
  rw [ha] at this
  exact Option.isSome_eq_false_iff.mp this.symm |> Option.isNone_iff_eq_none.mp

theorem hardCopyStorage_object {st : Storage} {a : Addr} {b : Nat}
    (h : w.hardCopyStorage st = some (.object a b)) : st = .object a b := by
  cases st with
  | stringPtr owner p bytes =>
      obtain ⟨s, -, hs⟩ := Option.map_eq_some_iff.mp h
      cases hs
  | _ => exact Option.some.inj h

/-- The references after a merge come from the destination or from the
source. -/
theorem merge_names {x y : Conn} {overwrite : Bool}
    {es : List (Key × Storage)} (ho : w.shared.get x.s = some x.o)
    (hoy : w.shared.get y.s = some y.o)
    (hes : w.hardCopyAll y.o.props.hash.entries = some es) {k : Key}
    {a : Addr} {b : Nat}
    (he : (afterMerge x overwrite es).2.hash.find k = some (.object a b)) :
    ∃ s' k', w.entry s' k' = some (.object a b) := by
  rcases afterMerge_spec x overwrite (hardCopyAll_nodup hes) k with
    ⟨st, hw, hf, -⟩ | ⟨-, hf, -⟩
  · rw [hf] at he
    obtain ⟨st₀, hm₀, hc⟩ := (hardCopyAll_mem hes).2 k st hw.1
    rw [Option.some.inj he] at hc
    rw [hardCopyStorage_object hc] at hm₀
    exact ⟨y.s, k, (entry_eq hoy k).trans
      (HashTable.find_eq_some_iff.mpr hm₀)⟩
  · rw [hf] at he
    exact ⟨x.s, k, (entry_eq ho k).trans he⟩

theorem AddrInv.merge (h : AddrInv w) {c source : Addr} {x y : Conn}
    {overwrite : Bool} {es : List (Key × Storage)} (hx : w.conn c = some x)
    (hy : w.conn source = some y)
    (hes : w.hardCopyAll y.o.props.hash.entries = some es) :
    AddrInv (w.commit c x.s (afterMerge x overwrite es)) :=
  h.commit (conn_eq_some.mp hx).2.2 fun he => Or.inl
    (merge_names (conn_eq_some.mp hx).2.2 (conn_eq_some.mp hy).2.2 hes he)

theorem step_addrInv {act : Act} (hs : Skel w) (h : AddrInv w)
    (hstep : step E w act = some w') (hfresh : FreshStep w w') :
    AddrInv w' := by
  have hs' := step_skel hs hstep
  have hcon := fun t => hs.connecting t
  have hlocal : ∀ {c : Addr} {l : Local} {u : World} {t : ThreadId},
      Grow E t (w.setLocal c l) u → FreshStep w u → AddrInv u := by
    intro c l u t hg hfr
    exact (h.setLocal c l).of_extends hg.extends
      (hfr.of_views (fun _ _ => rfl)
        (fun a => Heap.get_modify_isSome _ _ _ _) (fun _ => rfl)
        fun _ => rfl) hg.props
  have hsub : ∀ {c : Addr} {x : Conn} {u : World} {r : Local × Store Storage},
      w.conn c = some x → Grow E x.z.owner w u →
      FreshStep w (u.commit c x.s r) →
      (∀ k st, r.2.hash.find k = some st →
        x.o.props.hash.find k = some st) → AddrInv (u.commit c x.s r) := by
    intro c x u r hx hg hfr hr
    obtain ⟨-, -, ho⟩ := conn_eq_some.mp hx
    obtain ⟨n, hn⟩ := hg.extends.shared ho
    have hu : AddrInv u := h.of_extends hg.extends
      (hfr.of_views (fun _ _ => rfl) (fun _ => rfl)
        (fun a => (by
          rw [mem_commit]
          split
          · exact Option.isSome_map.symm
          · rfl)) fun a => (birthOf_commit u c a x.s r).symm) hg.props
    refine hu.commit hn fun {k a b} he => Or.inl ⟨x.s, k, ?_⟩
    exact (entry_eq hn k).trans (hr k _ he)
  cases step_effect hstep with
  | newString _ =>
      exact h.of_views (fun _ _ => rfl) (fun _ => rfl) (fun _ => rfl)
        rfl
  | freeString _ =>
      exact h.of_views (fun _ _ => rfl) (fun _ => rfl) (fun _ => rfl)
        rfl
  | newClosure _ =>
      exact h.of_views (fun _ _ => rfl) (fun _ => rfl) (fun _ => rfl)
        rfl
  | freeClosure =>
      exact h.of_views (fun _ _ => rfl) (fun _ => rfl) (fun _ => rfl)
        rfl
  | bindGlobals _ =>
      exact h.of_views (fun _ _ => rfl) (fun _ => rfl) (fun _ => rfl)
        rfl
  | release _ =>
      exact h.of_views (fun _ _ => rfl) (fun _ => rfl) (fun _ => rfl)
        rfl
  | @alloc t declared scope defaults _ _ =>
      refine h.of_entries hfresh (fun ha => List.mem_cons_of_mem _ ha)
        (fun {s k _ _} he => Or.inl ⟨s, k, he⟩) fun {b n} hb _ => ?_
      obtain ⟨z, hz⟩ := Option.isSome_iff_exists.mp (live_of_birthOf hb)
      rw [← hb]
      unfold birthOf tsOf
      change Option.map _ ((((w.mem.place _ _).get b).bind _).bind _) = _
      rw [Heap.get_place, if_neg (Heap.ne_next_of_get hz)]
      rfl
  | ctor hf hu => exact (h.baseCtor hs hf hu).setFrame _
  | @connect t a _ =>
      have hg := objectConnect_grow (E := E) (hcon t) a
      exact h.of_extends hg.extends hfresh hg.props
  | addGarbage _ _ _ _ _ => exact h.modify _ fun _ => rfl
  | collect _ => exact h.modify _ fun _ => rfl
  | @baseFree t a batch u hf hu =>
      have hu' : AddrInv u :=
        h.baseFree hs (fun hz hts => hs'.tsLive hz hts) hf hu
      exact hu'.setFrame _
  | readCached _ _ => exact h.setLocal _ _
  | readNothing _ => exact h.setLocal _ _
  | @readRestored c k access x st v u _ _ _ hr =>
      have hg := grow_of_restored hr (hcon x.z.owner)
      exact (hlocal hg hfresh).setFrame _
  | @readThrew c k access x st u _ hr =>
      have hg := grow_of_restored hr (hcon x.z.owner)
      exact hlocal hg hfresh
  | write hx _ hst =>
      exact (h.write (ready_eq_some.mp hx).1 hst).setFrame _
  | @delete c k x hx _ =>
      refine (hsub (ready_eq_some.mp hx).1 .refl hfresh
        fun k' st hk => ?_).setFrame _
      rw [bumpIf_hash, Store.find_delete] at hk
      split at hk
      · cases hk
      · exact hk
  | @deleteNothing c k x hx _ =>
      refine hsub (ready_eq_some.mp hx).1 .refl hfresh fun k' st hk => ?_
      change (x.o.props.delete k).hash.find k' = some st at hk
      rw [Store.find_delete] at hk
      split at hk
      · cases hk
      · exact hk
  | @fill t c k v _ =>
      have hfill : AddrInv (w.updateLocalProperty c k v) :=
        h.modify c fun _ => rfl
      exact hfill.setFrame _
  | @drop t c k _ =>
      have hdrop : AddrInv { w with mem := w.mem.modify c fun z =>
          { z with loc := z.loc.del k } } := h.modify c fun _ => rfl
      exact hdrop.setFrame _
  | @take act c x e p r u hx ht hr _ =>
      have hg := grow_of_restored hr (hcon x.z.owner)
      refine hsub (ready_eq_some.mp hx).1 hg hfresh fun k st hk => ?_
      rw [(afterTake_spec ht.takes k).1] at hk
      split at hk
      · cases hk
      · exact hk
  | takeNothing _ _ => exact h
  | @chunk c size x r hx hr =>
      refine hsub (ready_eq_some.mp hx).1
        (restoreAll_grow _ (hcon x.z.owner) hr) hfresh fun k st hk => ?_
      rw [(afterChunk_spec x size k).1] at hk
      split at hk
      · cases hk
      · exact hk
  | merge hx hy hes =>
      exact h.merge (ready_eq_some.mp hx).1 (ready_eq_some.mp hy).1 hes
  | @tohash c own x r l hx hr _ =>
      have hg := restoreAll_grow _ (hcon x.z.owner) hr
      have hfr : FreshStep w r.2 := hfresh.of_views (fun _ _ => rfl)
        (fun _ => rfl) (fun _ => (Heap.get_modify_isSome _ _ _ _).symm)
        fun a => (birthOf_setLocal r.2 c a l).symm
      exact (h.of_extends hg.extends hfr hg.props).setLocal c l
  | sync _ => exact h.setLocal _ _
  | fullSync _ hu =>
      have hsy := (fullSync_syncs visits_all _ (hcon _) trivial hu).1
      exact h.of_extends (hsy.extends (hcon _)) hfresh (hsy.props (hcon _))
  | join _ hu =>
      have hsy := joinSync_syncs visits_all (hcon _) trivial
        (fun _ _ => trivial) hu
      exact h.of_extends (hsy.extends (hcon _)) hfresh (hsy.props (hcon _))

-- =========================================================== every run

/-- Every step of the run is fresh. -/
abbrev FreshRun (E : Engine) : World → List Act → Prop :=
  AllSteps E fun w _ w' => FreshStep w w'

theorem run_addrInv (acts : List Act) (hs : Skel w) (h : AddrInv w)
    (hfresh : FreshRun E w acts) (hr : run E w acts = some w') :
    Skel w' ∧ AddrInv w' :=
  AllSteps.run_induct (I := fun w => Skel w ∧ AddrInv w)
    (fun _ _ _ hi hstep hf => ⟨step_skel hi.1 hstep,
      step_addrInv hi.1 hi.2 hstep hf⟩) acts ⟨hs, h⟩ hfresh hr

-- ================================================ without reuse

theorem GrowStep.fresh (hA : E.object.NoReuse) (h : GrowStep E t w w') :
    w.mem.Fresh w'.mem := by
  cases h with
  | string b => exact .refl _
  | closure cl => exact .refl _
  | connection _ _ _ _ _ _ => exact .place hA _ _

theorem Grow.fresh (hA : E.object.NoReuse) (h : Grow E t w w') :
    w.mem.Fresh w'.mem := by
  induction h with
  | refl => exact .refl _
  | tail _ hs ih => exact ih.trans (hs.fresh hA)

theorem Syncs.fresh {own : ThreadId → Prop} (hA : E.object.NoReuse)
    (hc : w.connecting t = none) (h : Syncs E t own w w') :
    w.mem.Fresh w'.mem := by
  induction h with
  | refl => exact .refl _
  | grow _ hg ih => exact (ih hc).trans (hg.fresh hA)
  | sync _ _ _ ih => exact (ih hc).trans (.modify _ _ _)
  | @put w u u₁ u₂ c x k st r hu _ _ _ _ _ hr _ hu₂ _ ih ih' =>
      have hcu := hu.connecting hc
      have hg := grow_of_restored hr hcu
      have hcu₁ : u₁.connecting t = none := by
        rw [hg.connecting]
        exact hcu
      exact (((ih hc).trans (hg.fresh hA)).trans (ih' hcu₁)).trans
        (.modify _ _ _)

theorem baseCtor_fresh (hs : Skel w) {a : Addr} {scope : Scope}
    {defaults : List (List Default)}
    (hu : w.baseCtor E t a scope defaults = some w') :
    w.mem.Fresh w'.mem := by
  unfold baseCtor at hu
  rw [hs.connecting t] at hu
  rw [← Option.some.inj hu]
  have hd : w.mem.Fresh ((w.tsObjectCtor E t a scope).writePropertyDefaults a
      defaults).mem := by
    refine writePropertyDefaults_induct (P := fun u => w.mem.Fresh u.mem)
      defaults ?_ (Heap.Fresh.modify w.mem a _)
    intro u k v r _ hu hr
    obtain ⟨x, st, -, -, rfl⟩ := writeLocked_some hr
    exact (hu.trans (.modify _ _ _)).trans (.modify _ _ _)
  unfold registerObject
  split
  · exact hd
  · exact hd.trans (.modify _ _ _)

/-- An allocator that never reuses an address hands out new ones
only. -/
theorem step_fresh (hA : E.object.NoReuse) (hs : Skel w) {act : Act}
    (h : step E w act = some w') : w.mem.Fresh w'.mem := by
  have hcon := fun t => hs.connecting t
  cases step_effect h with
  | alloc _ _ => exact .place hA _ _
  | ctor _ hu =>
      have hf := baseCtor_fresh hs hu
      exact hf
  | @connect t a _ => exact (objectConnect_grow (hcon t) a).fresh hA
  | addGarbage _ _ _ _ _ => exact .modify _ _ _
  | collect _ => exact .modify _ _ _
  | @baseFree t a batch u hf hu =>
      obtain ⟨s, htsOf, hres, o, ho⟩ := hs.freeing hf
      rcases baseFree_cases htsOf ho hres hu with ⟨-, rfl⟩ | ⟨-, -, rfl⟩
      · exact .free _ _
      · exact .free _ _
  | readCached _ _ => exact .modify _ _ _
  | readNothing _ => exact .modify _ _ _
  | @readRestored c k access x st v u _ _ _ hr =>
      have hg := grow_of_restored hr (hcon x.z.owner)
      exact (Heap.Fresh.modify _ _ _).trans (hg.fresh hA)
  | @readThrew c k access x st u _ hr =>
      have hg := grow_of_restored hr (hcon x.z.owner)
      exact (Heap.Fresh.modify _ _ _).trans (hg.fresh hA)
  | write _ _ _ => exact .modify _ _ _
  | delete _ _ => exact .modify _ _ _
  | deleteNothing _ _ => exact .modify _ _ _
  | fill _ => exact .modify _ _ _
  | drop _ => exact .modify _ _ _
  | @take act c x e p r u _ _ hr _ =>
      have hg := grow_of_restored hr (hcon x.z.owner)
      exact (hg.fresh hA).trans (.modify _ _ _)
  | @chunk c size x r _ hr =>
      exact ((restoreAll_grow _ (hcon x.z.owner) hr).fresh hA).trans
        (.modify _ _ _)
  | merge _ _ _ => exact .modify _ _ _
  | @tohash c own x r l _ hr _ =>
      exact ((restoreAll_grow _ (hcon x.z.owner) hr).fresh hA).trans
        (.modify _ _ _)
  | sync _ => exact .modify _ _ _
  | fullSync _ hu =>
      exact (fullSync_syncs visits_all _ (hcon _) trivial hu).1.fresh hA
        (hcon _)
  | join _ hu =>
      exact (joinSync_syncs visits_all (hcon _) trivial
        (fun _ _ => trivial) hu).fresh hA (hcon _)
  | _ => exact .refl _

/-- A new address is named by no reference. -/
theorem AddrInv.freshStep (h : AddrInv w) (hf : w.mem.Fresh w'.mem) :
    FreshStep w w' :=
  fun _ ha ha' _ _ _ he => absurd (h.past he) (hf.new ha ha')

/-- Without reuse every run is fresh. -/
theorem freshRun_of_noReuse (hA : E.object.NoReuse) (acts : List Act) :
    ∀ {w : World}, Skel w → AddrInv w → FreshRun E w acts := by
  induction acts with
  | nil => intro w _ _; trivial
  | cons act acts ih =>
      intro w hs h u hu
      have hf := h.freshStep (step_fresh hA hs hu)
      exact ⟨hf, ih (step_skel hs hu) (step_addrInv hs h hu hf)⟩

theorem Reachable.addrInv (hA : E.object.NoReuse) (h : Reachable E w) :
    AddrInv w := by
  obtain ⟨acts, hrun⟩ := h
  exact (run_addrInv acts skel_init addrInv_init
    (freshRun_of_noReuse hA acts skel_init addrInv_init) hrun).2

-- ===================================================== what is restored

/-- Connecting to a live object yields a connection to its ts_obj. -/
theorem objectConnect_ts (hs : Skel w) {a : Addr} {s : TsAddr}
    (hts : w.tsOf a = some s) {t : ThreadId}
    (hcan : w.connectable E t a = true) :
    ∃ l, (w.objectConnect E t a).1 = .ok l
      ∧ (w.objectConnect E t a).2.tsOf l = some s := by
  obtain ⟨z, hz, hzs⟩ := Option.bind_eq_some_iff.mp hts
  have hvalid : w.objectValid a = true := by
    unfold objectValid
    exact decide_eq_true ((hs.objects a).mpr (by rw [hz]; rfl))
  have hfind : w.findConnection t a
      = if z.owner = t then some (.ok a)
        else (w.resolve t s).map .ok := by
    unfold findConnection
    rw [if_pos hvalid, hz]
    simp only [hzs, Option.bind_some]
  by_cases hown : z.owner = t
  · rw [if_pos hown] at hfind
    unfold objectConnect
    rw [hfind]
    exact ⟨a, rfl, hts⟩
  · rw [if_neg hown] at hfind
    cases hres : w.resolve t s with
    | some l =>
        rw [hres] at hfind
        have hconn : w.objectConnect E t a = (.ok l, w) := by
          unfold objectConnect
          rw [hfind]
          rfl
        rw [hconn]
        obtain ⟨zl, hzl, -, hsl⟩ := hs.resolveLive hres
        exact ⟨l, rfl, Option.bind_eq_some_iff.mpr ⟨zl, hzl, hsl⟩⟩
    | none =>
        rw [hres] at hfind
        have hinit : w.initializes E t a = true := by
          unfold connectable at hcan
          rw [hfind] at hcan
          exact hcan
        rw [objectConnect_create (hs.connecting t) hfind hz, hzs]
        simp only [hinit, if_true]
        exact ⟨_, rfl, Option.bind_eq_some_iff.mpr
          ⟨_, Heap.get_place_self _ _ _, rfl⟩⟩

/-- Connecting to a live object whose identity is known yields it. -/
theorem objectConnect_birth (hs : Skel w) {a : Addr} {b : Nat}
    (hb : w.birthOf a = some b) {t : ThreadId}
    (hcan : w.connectable E t a = true) :
    ∃ l, (w.objectConnect E t a).1 = .ok l
      ∧ (w.objectConnect E t a).2.birthOf l = some b := by
  obtain ⟨o, ho, hbo⟩ := Option.map_eq_some_iff.mp hb
  obtain ⟨s, hts, ho⟩ := Option.bind_eq_some_iff.mp ho
  obtain ⟨l, hl, hls⟩ := objectConnect_ts hs hts hcan
  obtain ⟨n, hn⟩ :=
    (objectConnect_grow (E := E) (hs.connecting t) a).extends.shared ho
  refine ⟨l, hl, ?_⟩
  unfold birthOf
  rw [hls, Option.bind_some, hn]
  exact congrArg some hbo

/-- Connecting to an address that is not live fails. -/
theorem objectConnect_gone (hs : Skel w) {a : Addr}
    (ha : w.mem.get a = none) (t : ThreadId) :
    w.objectConnect E t a = (.gone, w) := by
  have hvalid : ¬ w.objectValid a = true := by
    unfold objectValid
    rw [decide_eq_true_eq, hs.objects a, ha]
    exact Bool.false_ne_true
  unfold objectConnect findConnection
  rw [if_neg hvalid]

/-- In every run that is fresh, restoring a stored object reference
yields an object with the identity that was written, or there is nothing
to connect to and it fails with the ConnectionException: on any thread
that can initialise the class, and also after the operation that restores
it has already restored other values (`v`). -/
theorem restored_object_is_written (E : Engine) (acts : List Act)
    (w v : World) (t : ThreadId) (s : TsAddr) (k : Key) (a : Addr) (b : Nat)
    (hrun : run E init acts = some w) (hfresh : FreshRun E init acts)
    (hv : Grow E t w v) (hfv : FreshStep w v)
    (he : v.entry s k = some (.object a b))
    (hcan : v.connectable E t a = true) :
    (∃ l u, v.restoreZval E t (.object a b) = (.value (.object l), u)
        ∧ u.birthOf l = some b)
      ∨ v.objectConnect E t a = (.gone, v)
        ∧ v.restoreZval E t (.object a b) = (.failed, v) := by
  obtain ⟨hsw, haw⟩ := run_addrInv acts skel_init addrInv_init hfresh hrun
  have hs : Skel v := hsw.grow hv
  have ha : AddrInv v := haw.of_extends hv.extends hfv hv.props
  unfold restoreZval
  simp only []
  cases hz : v.mem.get a with
  | none =>
      rw [objectConnect_gone hs hz]
      exact Or.inr ⟨rfl, rfl⟩
  | some z =>
      have hb := ha.birth he (by rw [hz]; rfl)
      obtain ⟨l, hl, hlb⟩ := objectConnect_birth hs hb hcan
      rcases hr : v.objectConnect E t a with ⟨r, u⟩
      rw [hr] at hl hlb
      change r = .ok l at hl
      rw [hl]
      exact Or.inl ⟨l, u, rfl, hlb⟩

/-- Thread 1 makes an object, thread 2 connects to it, makes another one
and stores that under key 0. -/
def storeForeign : List Act :=
  [.alloc 1 [] .threaded [], .ctor 1, .connect 2 1, .alloc 2 [] .threaded [],
    .ctor 2, .write 2 (some (.long 0)) (.object 3), .finish 2]

theorem restored_object_is_written_foreign :
    ∃ w, run (demoEngine .bump) init storeForeign = some w
      ∧ w.entry 1 (.long 0) = some (.object 3 1)
      ∧ ((∃ l u, w.restoreZval (demoEngine .bump) 1 (.object 3 1)
            = (.value (.object l), u) ∧ u.birthOf l = some 1)
        ∨ w.objectConnect (demoEngine .bump) 1 3 = (.gone, w)
          ∧ w.restoreZval (demoEngine .bump) 1 (.object 3 1)
            = (.failed, w)) := by
  have hview : (run (demoEngine .bump) init storeForeign).map
      (fun w => (w.entry 1 (.long 0), w.connectable (demoEngine .bump) 1 3))
      = some (some (.object 3 1), true) := by
    decide
  obtain ⟨w, hw, hv⟩ := Option.map_eq_some_iff.mp hview
  obtain ⟨he, hcan⟩ := Prod.mk.inj hv
  refine ⟨w, hw, he, ?_⟩
  have hfresh : FreshRun (demoEngine .bump) init storeForeign :=
    freshRun_of_noReuse Allocator.bump_noReuse _ skel_init addrInv_init
  exact restored_object_is_written (demoEngine .bump) storeForeign w w 1 1
    (.long 0) 3 1 hw hfresh .refl
    (fun a ha ha' => by rw [ha] at ha'; cases ha') he hcan

/-- Then thread 2 frees both, and thread 1 makes a new object, which gets
the address of the freed one and is yielded in its place. -/
def reuseAddress : List Act :=
  storeForeign ++ [.release 2 [2, 3], .baseFree 2, .baseFree 2,
    .alloc 1 [] .threaded [], .ctor 1]

theorem restored_object_of_reused_address :
    ¬ ∀ (E : Engine) (acts : List Act) (w : World) (t : ThreadId)
        (s : TsAddr) (k : Key) (a : Addr) (b : Nat),
      run E init acts = some w → w.entry s k = some (.object a b) →
      (∃ l u, w.restoreZval E t (.object a b) = (.value (.object l), u)
          ∧ u.birthOf l = some b)
        ∨ ∃ u, w.restoreZval E t (.object a b) = (.failed, u) := by
  intro h
  have hview : (run (demoEngine .recycle) init reuseAddress).map
      (fun w => (w.entry 1 (.long 0),
        (w.restoreZval (demoEngine .recycle) 1 (.object 3 1)).1,
        (w.restoreZval (demoEngine .recycle) 1 (.object 3 1)).2.birthOf 3))
      = some (some (.object 3 1), .value (.object 3), some 2) := by
    decide
  obtain ⟨w, hw, hv⟩ := Option.map_eq_some_iff.mp hview
  obtain ⟨he, hv⟩ := Prod.mk.inj hv
  obtain ⟨hr, hb⟩ := Prod.mk.inj hv
  rcases h _ _ w 1 1 (.long 0) 3 1 hw he with ⟨l, u, hl, hlb⟩ | ⟨u, hl⟩
  · rw [hl] at hr hb
    change Restored.value (.object l) = .value (.object 3) at hr
    injection hr with hr
    injection hr with hr
    rw [hr, hb] at hlb
    cases hlb
  · rw [hl] at hr
    cases hr

end PmmpThread.Model.World
