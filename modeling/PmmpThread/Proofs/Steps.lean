/-
What one step can do to one store, to the identity of one object, and
to the two modification counts of one connection. The cache invariants
of the next modules rest on these and look at the acting connection
only.

# Which steps touch a key

`touches` says which steps write or remove the key `k` of the ts_obj
`s`. A step that does not leaves the storage there, with one exception:
a free of a connection turns the string pointers of its thread into
persistent copies.
-/
import PmmpThread.Proofs.Strings
import PmmpThread.Proofs.Addresses

namespace PmmpThread.Model.World

open Zend

variable {E : Engine} {a t : ThreadId} {w w' : World}

/-- The step writes or removes the key `k` of `s`. -/
def touches (w : World) (s : TsAddr) (k : Key) : Act → Prop
  | .write c key _ => ∃ x, w.conn c = some x ∧ x.s = s
      ∧ x.o.props.member key = k
  | .delete c k' => k' = k ∧ w.tsOf c = some s
  | .shift c => ∃ x, w.conn c = some x ∧ x.s = s
      ∧ x.o.props.shift.1.map Prod.fst = some k
  | .pop c => ∃ x, w.conn c = some x ∧ x.s = s
      ∧ x.o.props.pop.1.map Prod.fst = some k
  | .chunk c size => ∃ x, w.conn c = some x ∧ x.s = s
      ∧ k ∈ (x.o.props.chunk size).1.map Prod.fst
  | .merge c source overwrite => ∃ x y, w.conn c = some x
      ∧ w.conn source = some y ∧ x.s = s
      ∧ y.o.props.hash.contains k = true
      ∧ (overwrite = true ∨ x.o.props.hash.find k = none)
  | _ => False

/-- The step is a mutator through the connection `c`. -/
def mutates (c : Addr) : Act → Prop
  | .write c' _ _ | .delete c' _ | .shift c' | .pop c' | .chunk c' _
  | .merge c' _ _ => c' = c
  | _ => False

/-- The step is the free of a connection of thread `t` to `s`. -/
def frees (w : World) (s : TsAddr) (t : ThreadId) (act : Act) : Prop :=
  act = .baseFree t ∧ ∃ o batch, w.frame t = .freeing (o :: batch)
    ∧ w.tsOf o = some s

/-- The storage `st` became a persistent copy of the same bytes. -/
def Persisted (st : Storage) (owner : ThreadId) (st' : Storage) : Prop :=
  ∃ p b, st = .stringPtr owner p b ∧ st' = .string false b

/-- What a step does to the store of `s`. -/
structure StoreStep (w : World) (s : TsAddr) (act : Act)
    (p p' : Store Storage) : Prop where
  mono : p.modcount ≤ p'.modcount
  safe : p'.modcount = p.modcount → ∀ k st, p.hash.find k = some st →
    storageIsCacheable (some st) = true → p'.hash.find k = some st
      ∨ ∃ t st', frees w s t act ∧ Persisted st t st'
        ∧ p'.hash.find k = some st'
  quiet : ∀ k, ¬ touches w s k act → p'.hash.find k = p.hash.find k
    ∨ ∃ t st st', frees w s t act ∧ p.hash.find k = some st
      ∧ Persisted st t st' ∧ p'.hash.find k = some st'

theorem StoreStep.same (w : World) (s : TsAddr) (act : Act)
    (p : Store Storage) : StoreStep w s act p p where
  mono := Int.le_refl _
  safe _ _ _ hk _ := Or.inl hk
  quiet _ _ := Or.inl rfl

/-- A mutator through a connection to `s`. -/
theorem StoreStep.of_bumps {x : Conn} {s : TsAddr} {act : Act}
    {r : Local × Store Storage} (hb : Bumps x r)
    (hq : ∀ k, ¬ touches w s k act →
      r.2.hash.find k = x.o.props.hash.find k) :
    StoreStep w s act x.o.props r.2 where
  mono := by
    rcases hb.shared with h | h
    · exact Int.le_of_eq h.symm
    · rw [h]
      omega
  safe hm k st hk hc := Or.inl (hb.safe hm k st hk hc)
  quiet k hk := Or.inl (hq k hk)

/-- The stores that a commit through `c` leaves. -/
theorem shared_of_commit {u : World} (hg : Grow E a w u) {c : Addr}
    {x : Conn} (hx : w.conn c = some x) {r : Local × Store Storage}
    {s : TsAddr} {o o' : TsObj} (ho : w.shared.get s = some o)
    (ho' : (u.commit c x.s r).shared.get s = some o') :
    s = x.s ∧ o.props = x.o.props ∧ o'.props = r.2
      ∨ o'.props = o.props := by
  obtain ⟨n, hn⟩ := hg.extends.shared ho
  rw [shared_commit, hn] at ho'
  split at ho'
  case isTrue hs =>
    refine Or.inl ⟨hs, ?_, ?_⟩
    · obtain ⟨-, -, hxo⟩ := conn_eq_some.mp hx
      rw [hs, hxo] at ho
      rw [← Option.some.inj ho]
    · rw [← Option.some.inj ho']
  case isFalse => exact Or.inr (by rw [← Option.some.inj ho'])

theorem bumps_write (x : Conn) (key : Option Key) (st : Storage) :
    Bumps x (bumpIf (memberIsCacheable x.o.props.hash (x.o.props.member key))
      x.z.loc (x.o.props.write key st true)) := by
  refine bumps_bumpIf rfl (Store.modcount_write _ _ _ _)
    fun hb k st' hk hc => ?_
  rw [Store.find_write, if_neg]
  · exact hk
  · intro hkk
    unfold memberIsCacheable at hb
    rw [← hkk, hk, hc] at hb
    cases hb

/-- A construction leaves the stores there were. -/
theorem baseCtor_props (hs : Skel w) {o : Addr} {scope : Scope}
    {defaults : List (List Default)}
    (hf : w.frame t = .allocated o scope defaults)
    (hu : w.baseCtor E t o scope defaults = some w') {s : TsAddr}
    {ob : TsObj} (hob : w.shared.get s = some ob) :
    w'.shared.get s = some ob := by
  have hfo := hs.frames t
  rw [hf] at hfo
  obtain ⟨z, hz, -, -⟩ := hfo
  have hne : s ≠ w.shared.next E.shared := Heap.ne_next_of_get hob
  have hall := writePropertyDefaults_induct (P := fun u =>
      u.shared.get s = some ob
      ∧ u.tsOf o = some (w.shared.next E.shared)) (c := o)
    (w := w.tsObjectCtor E t o scope) defaults
    (fun {u k v r} _ hP hr => by
      obtain ⟨x, st, hx, -, rfl⟩ := writeLocked_some hr
      obtain ⟨hxz, hxs, -⟩ := conn_eq_some.mp hx
      have hss : x.s = w.shared.next E.shared := by
        have := hP.2
        unfold tsOf at this
        rw [hxz] at this
        exact Option.some.inj (hxs.symm.trans this)
      refine ⟨?_, ?_⟩
      · show (u.commit o x.s _).shared.get s = some ob
        rw [shared_commit, if_neg (hss ▸ hne)]
        exact hP.1
      · have hm := tsOf_modify (u.commit o x.s (u.writeStore x.z.owner
            x.z.loc x.o.props (some k) st).2) o o (f := fun z => { z with
              loc := z.loc.updateLocalProperty z.declared
                (x.o.props.member (some k)) v }) fun _ => rfl
        exact hm.trans ((tsOf_commit u o o x.s _).trans hP.2))
    ⟨by
      show (w.shared.place _ _).get s = some ob
      rw [Heap.get_place, if_neg hne]
      exact hob, by
      unfold tsOf
      rw [get_tsObjectCtor hz, if_pos rfl]
      rfl⟩
  unfold baseCtor at hu
  rw [hs.connecting t] at hu
  rw [← Option.some.inj hu]
  unfold registerObject
  split
  · exact hall.1
  · exact hall.1

/-- A free leaves the other stores, and persists its own. -/
theorem StoreStep.baseFree (hs : Skel w) (h : OwnOf w t) {o : Addr}
    {batch : List Addr} (hf : w.frame t = .freeing (o :: batch))
    (hu : w.baseFree t o = some w') {s : TsAddr} {ob ob' : TsObj}
    (hob : w.shared.get s = some ob) (hob' : w'.shared.get s = some ob') :
    StoreStep w s (.baseFree t) ob.props ob'.props
      ∧ ob'.birth = ob.birth := by
  obtain ⟨so, htsOf, hres, oo, hoo⟩ := hs.freeing hf
  rcases baseFree_cases htsOf hoo hres hu with ⟨-, rfl⟩ | ⟨-, -, rfl⟩
  · change (w.shared.free so).get s = some ob' at hob'
    rw [Heap.get_free] at hob'
    split at hob'
    · cases hob'
    · rw [hob] at hob'
      rw [← Option.some.inj hob']
      exact ⟨.same w s _ _, rfl⟩
  · change (w.persisted t so oo).get s = some ob' at hob'
    rw [get_persisted hoo] at hob'
    split at hob'
    case isFalse =>
      rw [hob] at hob'
      rw [← Option.some.inj hob']
      exact ⟨.same w s _ _, rfl⟩
    case isTrue hss =>
      rw [hss] at hob ⊢
      rw [hoo] at hob
      have hoe : oo = ob := Option.some.inj hob
      subst hoe
      rw [← Option.some.inj hob']
      have hfrees : frees w so t (.baseFree t) := ⟨rfl, o, batch, hf, htsOf⟩
      have hone : ∀ k st, oo.props.hash.find k = some st →
          (oo.props.hash.mapVal (w.persistStorage t)).find k = some st
            ∨ ∃ st', Persisted st t st'
              ∧ (oo.props.hash.mapVal (w.persistStorage t)).find k
                = some st' := by
        intro k st hk
        rw [HashTable.find_mapVal, hk, Option.map_some]
        cases st with
        | stringPtr owner p b =>
            by_cases hown : owner = t
            · rw [hown] at hk ⊢
              obtain ⟨hp, -⟩ := h.strings ((entry_eq hoo k).trans hk)
              refine Or.inr ⟨.string false b, ⟨p, b, rfl, rfl⟩, ?_⟩
              unfold persistStorage
              simp only [if_true, hp]
            · refine Or.inl ?_
              unfold persistStorage
              simp only [if_neg hown]
        | _ => exact Or.inl rfl
      refine ⟨⟨Int.le_refl _, fun _ k st hk _ => ?_, fun k _ => ?_⟩, rfl⟩
      · rcases hone k st hk with h' | ⟨st', hp, h'⟩
        · exact Or.inl h'
        · exact Or.inr ⟨t, st', hfrees, hp, h'⟩
      · cases hk : oo.props.hash.find k with
        | none =>
            refine Or.inl ?_
            show (oo.props.hash.mapVal _).find k = none
            rw [HashTable.find_mapVal, hk]
            rfl
        | some st =>
            rcases hone k st hk with h' | ⟨st', hp, h'⟩
            · exact Or.inl h'
            · exact Or.inr ⟨t, st, st', hfrees, rfl, hp, h'⟩

theorem birth_commit {u : World} {c : Addr} {s s' : TsAddr}
    {r : Local × Store Storage} {o' : TsObj}
    (h : (u.commit c s r).shared.get s' = some o') :
    ∃ o, u.shared.get s' = some o ∧ o.birth = o'.birth := by
  rw [shared_commit] at h
  split at h
  · obtain ⟨o, ho, rfl⟩ := Option.map_eq_some_iff.mp h
    exact ⟨o, ho, rfl⟩
  · exact ⟨o', h, rfl⟩

/-- What a step does to a ts_obj that is there before and after. -/
theorem step_store {act : Act} (hs : Skel w) (hown : OwnInv w)
    (hstep : step E w act = some w') {s : TsAddr} {o o' : TsObj}
    (ho : w.shared.get s = some o) (ho' : w'.shared.get s = some o') :
    StoreStep w s act o.props o'.props ∧ o'.birth = o.birth := by
  have hcon := fun t => hs.connecting t
  have hext : ∀ {u : World}, Extends w u → u.shared.get s = some o' →
      StoreStep w s act o.props o'.props ∧ o'.birth = o.birth := by
    intro u hu hou
    obtain ⟨n, hn⟩ := hu.shared ho
    rw [hn] at hou
    rw [← Option.some.inj hou]
    exact ⟨.same w s act o.props, rfl⟩
  have hsame : w.shared.get s = some o' →
      StoreStep w s act o.props o'.props ∧ o'.birth = o.birth :=
    hext (.refl w)
  have hcommit : ∀ {c x u r}, w.conn c = some x → Grow E x.z.owner w u →
      (u.commit c x.s r).shared.get s = some o' →
      (s = x.s → o.props = x.o.props →
        StoreStep w s act x.o.props r.2) →
      StoreStep w s act o.props o'.props ∧ o'.birth = o.birth := by
    intro c x u r hx hg hou hstore
    refine ⟨?_, ?_⟩
    · rcases shared_of_commit hg hx ho hou with ⟨hs', h1, h2⟩ | h'
      · rw [h1, h2]
        exact hstore hs' h1
      · rw [h']
        exact .same w s act o.props
    · obtain ⟨o'', hou', hb⟩ := birth_commit hou
      obtain ⟨n, hn⟩ := hg.extends.shared ho
      rw [hn] at hou'
      rw [← hb, ← Option.some.inj hou']
  cases step_effect hstep with
  | ctor hf hu =>
      have hu' := baseCtor_props hs hf hu ho
      exact hsame (ho.trans (hu'.symm.trans ho'))
  | connect _ => exact hext (objectConnect_grow (hcon _) _).extends ho'
  | baseFree hf hu => exact StoreStep.baseFree hs (hown _) hf hu ho ho'
  | @readRestored c k access x st v u _ _ _ hr =>
      have hg := grow_of_restored hr (hcon x.z.owner)
      exact hext ((extends_modify_loc w c fun _ => w.readSync x).trans
        hg.extends) ho'
  | @readThrew c k access x st u _ hr =>
      have hg := grow_of_restored hr (hcon x.z.owner)
      exact hext ((extends_modify_loc w c fun _ => w.readSync x).trans
        hg.extends) ho'
  | @write c key v x st hx _ _ =>
      obtain ⟨hc, -⟩ := ready_eq_some.mp hx
      refine hcommit hc .refl ho' fun hss _ => ?_
      have hb := StoreStep.of_bumps (w := w) (s := s)
        (bumps_write x key st) fun k (hk : ¬ touches w s k (.write c key v)) => by
          rw [bumpIf_hash, Store.find_write, if_neg]
          intro hkk
          exact hk ⟨x, hc, hss.symm, hkk.symm⟩
      exact hb
  | @delete c k x hx _ =>
      obtain ⟨hc, -⟩ := ready_eq_some.mp hx
      obtain ⟨hz, hts, -⟩ := conn_eq_some.mp hc
      refine hcommit hc .refl ho' fun hss _ => ?_
      refine StoreStep.of_bumps (bumps_delete x k) fun k' hk => ?_
      rw [bumpIf_hash, Store.find_delete, if_neg]
      intro hkk
      refine hk ⟨hkk.symm, ?_⟩
      unfold tsOf
      rw [hz, hss]
      exact hts
  | @deleteNothing c k x hx hk =>
      obtain ⟨hc, -⟩ := ready_eq_some.mp hx
      refine hcommit hc .refl ho' fun hss _ => ?_
      have hfind : ∀ k', (x.o.props.delete k).hash.find k'
          = x.o.props.hash.find k' := by
        intro k'
        rw [Store.find_delete]
        split
        case isTrue hkk =>
          unfold HashTable.contains at hk
          rw [hkk]
          exact (Option.isSome_eq_false_iff.mp hk |>
            Option.isNone_iff_eq_none.mp).symm
        case isFalse => rfl
      exact ⟨Int.le_refl _, fun _ k' st hk' _ =>
        Or.inl ((hfind k').trans hk'), fun k' _ => Or.inl (hfind k')⟩
  | @take act c x e p r u hx ht hr _ =>
      obtain ⟨hc, -⟩ := ready_eq_some.mp hx
      have hg := grow_of_restored hr (hcon x.z.owner)
      refine hcommit hc hg ho' fun hss _ => ?_
      refine StoreStep.of_bumps (bumps_afterTake ht.takes) fun k hk => ?_
      rw [(afterTake_spec ht.takes k).1, if_neg]
      intro hkk
      rcases ht with ⟨hact, hsh⟩ | ⟨hact, hsh⟩
      · rw [hact] at hk
        exact hk ⟨x, hc, hss.symm, by rw [hsh, hkk]; rfl⟩
      · rw [hact] at hk
        exact hk ⟨x, hc, hss.symm, by rw [hsh, hkk]; rfl⟩
  | @chunk c size x r hx hr =>
      obtain ⟨hc, -⟩ := ready_eq_some.mp hx
      refine hcommit hc (restoreAll_grow _ (hcon x.z.owner) hr) ho'
        fun hss _ => ?_
      refine StoreStep.of_bumps (bumps_afterChunk x size) fun k hk => ?_
      rw [(afterChunk_spec x size k).1, if_neg]
      intro hkk
      exact hk ⟨x, hc, hss.symm, hkk⟩
  | @merge c source overwrite x y es hx hy hes =>
      obtain ⟨hc, -⟩ := ready_eq_some.mp hx
      obtain ⟨hcy, -⟩ := ready_eq_some.mp hy
      have hnd := hardCopyAll_nodup hes
      refine hcommit hc .refl ho' fun hss _ => ?_
      refine StoreStep.of_bumps (bumps_afterMerge x overwrite hnd)
        fun k hk => ?_
      rcases afterMerge_spec x overwrite hnd k with ⟨st, hw, -⟩ | ⟨-, hf, -⟩
      · exact absurd ⟨x, y, hc, hcy, hss.symm, hardCopyAll_contains hes hw.1,
          hw.2⟩ hk
      · exact hf
  | @tohash c own x r l hx hr _ =>
      exact hext (restoreAll_grow _ (hcon x.z.owner) hr).extends ho'
  | fullSync hx hu =>
      have hsy := (fullSync_syncs visits_all _ (hcon _) trivial hu).1
      exact hext (hsy.extends (hcon _)) ho'
  | join hx hu =>
      have hsy := joinSync_syncs visits_all (hcon _) trivial
        (fun _ _ => trivial) hu
      exact hext (hsy.extends (hcon _)) ho'
  | _ => exact hsame ho'

-- ======================================================== one object

/-- The step is the free of the object `c`. -/
def freesAt (w : World) (c : Addr) (act : Act) : Prop :=
  ∃ t batch, act = .baseFree t ∧ w.frame t = .freeing (c :: batch)

/-- An object that has its ts_obj keeps it, and its owner, until it is
freed. -/
theorem step_obj {act : Act} (hs : Skel w) (hstep : step E w act = some w')
    {c : Addr} {z : ZObj} {s : TsAddr} (hz : w.mem.get c = some z)
    (hts : z.tsObj = some s) :
    freesAt w c act ∨ ∃ z', w'.mem.get c = some z' ∧ z'.owner = z.owner
      ∧ z'.tsObj = some s := by
  have hcon := fun t => hs.connecting t
  have hskel : ∀ {u v v' : World}, Extends w u → SameSkel u v →
      v'.mem = v.mem → freesAt w c act ∨ ∃ z', v'.mem.get c = some z'
        ∧ z'.owner = z.owner ∧ z'.tsObj = some s := by
    intro u v v' hu hsame hmem
    obtain ⟨l, hl⟩ := hu.mem hz
    obtain ⟨z', hz', ho, hts'⟩ := hsame.symm.get hl
    exact Or.inr ⟨z', hmem ▸ hz', ho, hts'.trans hts⟩
  have hext : ∀ {u v : World}, Extends w u → v.mem = u.mem →
      freesAt w c act ∨ ∃ z', v.mem.get c = some z' ∧ z'.owner = z.owner
        ∧ z'.tsObj = some s := fun hu hmem => hskel hu (.refl _) hmem
  cases step_effect hstep with
  | alloc _ _ => exact Or.inr ⟨z, get_objectAlloc hz, rfl, hts⟩
  | @ctor t o scope defaults u hf hu =>
      have hfo := hs.frames t
      rw [hf] at hfo
      obtain ⟨zo, hzo, -, htso⟩ := hfo
      have hne : c ≠ o := by
        intro hc
        rw [hc, hzo] at hz
        rw [← Option.some.inj hz, htso] at hts
        cases hts
      have hsame := (baseCtor_same hs hzo hu).1
      have hz1 : (w.constructed E t o scope).mem.get c = some z := by
        show (w.mem.modify o _).get c = some z
        rw [Heap.get_modify_ne _ _ hne]
        exact hz
      obtain ⟨z', hz', ho, hts'⟩ := hsame.symm.get hz1
      exact Or.inr ⟨z', hz', ho, hts'.trans hts⟩
  | @connect t o _ => exact hext (objectConnect_grow (hcon t) o).extends rfl
  | @addGarbage x o _ _ _ _ _ _ _ =>
      exact hskel (.refl w) (sameSkel_modify w x
        (fun z => { z with gc := z.gc ++ [o] }) fun _ => ⟨rfl, rfl⟩) rfl
  | @collect x _ _ =>
      exact hskel (.refl w) (sameSkel_modify w x
        (fun z => { z with gc := z.gc.tail }) fun _ => ⟨rfl, rfl⟩) rfl
  | @baseFree t o batch u hf hu =>
      by_cases hc : c = o
      · exact Or.inl ⟨t, batch, rfl, hc ▸ hf⟩
      · obtain ⟨so, htsOf, hres, oo, hoo⟩ := hs.freeing hf
        refine Or.inr ⟨z, ?_, rfl, hts⟩
        show u.mem.get c = some z
        rw [(baseFree_mem htsOf hoo hres hu).1, Heap.get_free, if_neg hc]
        exact hz
  | readCached _ _ => exact hskel (.refl w) (sameSkel_setLocal w _ _) rfl
  | readNothing _ => exact hskel (.refl w) (sameSkel_setLocal w _ _) rfl
  | @readRestored c' k access x st v u _ _ _ hr =>
      have hg := grow_of_restored hr (hcon x.z.owner)
      exact hext ((extends_modify_loc w c' fun _ => w.readSync x).trans
        hg.extends) rfl
  | @readThrew c' k access x st u _ hr =>
      have hg := grow_of_restored hr (hcon x.z.owner)
      exact hext ((extends_modify_loc w c' fun _ => w.readSync x).trans
        hg.extends) rfl
  | write _ _ _ => exact hskel (.refl w) (sameSkel_commit w _ _ _) rfl
  | delete _ _ => exact hskel (.refl w) (sameSkel_commit w _ _ _) rfl
  | deleteNothing _ _ => exact hskel (.refl w) (sameSkel_commit w _ _ _) rfl
  | @fill t c' k v _ =>
      exact hskel (.refl w) (sameSkel_updateLocalProperty w c' k v)
        rfl
  | @drop t c' k _ =>
      exact hskel (.refl w) (sameSkel_modify w c'
        (fun z => { z with loc := z.loc.del k }) fun _ => ⟨rfl, rfl⟩) rfl
  | @take act c' x e p r u _ _ hr _ =>
      have hg := grow_of_restored hr (hcon x.z.owner)
      exact hskel hg.extends (sameSkel_commit u _ _ _) rfl
  | @chunk c' size x r _ hr =>
      exact hskel (restoreAll_grow _ (hcon x.z.owner) hr).extends
        (sameSkel_commit _ _ _ _) rfl
  | merge _ _ _ => exact hskel (.refl w) (sameSkel_commit w _ _ _) rfl
  | @tohash c' own x r l _ hr _ =>
      exact hskel (restoreAll_grow _ (hcon x.z.owner) hr).extends
        (sameSkel_setLocal _ _ _) rfl
  | sync _ => exact hskel (.refl w) (sameSkel_setLocal w _ _) rfl
  | fullSync _ hu =>
      have hsy := (fullSync_syncs visits_all _ (hcon _) trivial hu).1
      exact hext (hsy.extends (hcon _)) rfl
  | join _ hu =>
      have hsy := joinSync_syncs visits_all (hcon _) trivial
        (fun _ _ => trivial) hu
      exact hext (hsy.extends (hcon _)) rfl
  | _ => exact Or.inr ⟨z, hz, rfl, hts⟩

/-- What a step does to a connection that it does not free. -/
theorem step_conn {act : Act} (hs : Skel w) (hown : OwnInv w)
    (hstep : step E w act = some w') {c : Addr} {x : Conn}
    (hx : w.conn c = some x) :
    freesAt w c act ∨ ∃ x', w'.conn c = some x' ∧ x'.z.owner = x.z.owner
      ∧ x'.s = x.s ∧ StoreStep w x.s act x.o.props x'.o.props
      ∧ x'.o.birth = x.o.birth := by
  obtain ⟨hz, hts, ho⟩ := conn_eq_some.mp hx
  rcases step_obj hs hstep hz hts with hf | ⟨z', hz', ho', hts'⟩
  · exact Or.inl hf
  · obtain ⟨o', hoo'⟩ := (step_skel hs hstep).tsLive hz' hts'
    obtain ⟨hst, hb⟩ := step_store hs hown hstep ho hoo'
    exact Or.inr ⟨⟨z', x.s, o'⟩, conn_eq_some.mpr ⟨hz', hts', hoo'⟩, ho',
      rfl, hst, hb⟩

/-- The identity of an object does not change while it is live. -/
theorem step_birthOf {act : Act} (hs : Skel w) (hown : OwnInv w)
    (hstep : step E w act = some w') {l : Addr} {b : Nat}
    (hb : w.birthOf l = some b) :
    freesAt w l act ∨ w'.birthOf l = some b := by
  obtain ⟨o, ho, hbo⟩ := Option.map_eq_some_iff.mp hb
  obtain ⟨s, hts, ho⟩ := Option.bind_eq_some_iff.mp ho
  obtain ⟨z, hz, hts⟩ := Option.bind_eq_some_iff.mp hts
  have hx : w.conn l = some ⟨z, s, o⟩ := conn_eq_some.mpr ⟨hz, hts, ho⟩
  rcases step_conn hs hown hstep hx with hf | ⟨x', hx', -, hs', -, hb'⟩
  · exact Or.inl hf
  · obtain ⟨hz', hts', ho'⟩ := conn_eq_some.mp hx'
    refine Or.inr ?_
    unfold birthOf tsOf
    rw [hz', Option.bind_some, hts', Option.bind_some, ho']
    exact congrArg some (hb'.trans hbo)

-- ===================================================== one local table

/-- A frame that is not about the local table of `c`. -/
def Off (c : Addr) : Frame → Prop
  | .fill c' _ _ | .drop c' _ => c' ≠ c
  | _ => True

/-- What a step to `w'` does to the connection `c`, which is `x` before:
the local table and the store it leaves. -/
inductive ConnStep (E : Engine) (w : World) (c : Addr) (x : Conn) :
    Act → World → Local → Store Storage → Prop
  /-- The step leaves the local table alone. -/
  | same {act p} {w' : World} (hf : w'.frame x.z.owner = w.frame x.z.owner
      ∨ Off c (w.frame x.z.owner) ∧ Off c (w'.frame x.z.owner)) :
      ConnStep E w c x act w' x.z.loc p
  | read {k access} {w' : World} (hi : w.frame x.z.owner = .idle)
      (hf : w'.frame x.z.owner = .idle) :
      ConnStep E w c x (.read c k access) w' (w.readSync x) x.o.props
  | readFill {k access u v st} (hi : w.frame x.z.owner = .idle)
      (hn : (w.readSync x).cached k = none)
      (hst : x.o.props.hash.find k = some st)
      (hr : (w.setLocal c (w.readSync x)).restoreZval E x.z.owner st
        = (.value v, u)) :
      ConnStep E w c x (.read c k access)
        (u.setFrame x.z.owner (.fill c k v)) (w.readSync x) x.o.props
  | sync {w' : World} (hi : w.frame x.z.owner = .idle)
      (hf : w'.frame x.z.owner = .idle) :
      ConnStep E w c x (.sync c) w'
        (w.syncLocal x.z.owner x.o.props x.z.loc) x.o.props
  | tohash {own r l} {w' : World} (hi : w.frame x.z.owner = .idle)
      (hf : w'.frame x.z.owner = .idle)
      (hr : w.restoreAll E x.z.owner
        (uncached (w.tohashSync x) x.o.props.hash) = some r)
      (hl : l = w.tohashSync x
        ∨ own = true ∧ l = { addIndirect x.z.declared
            (putAll x.z.declared (w.tohashSync x) r.1) with
            modcount := x.o.props.modcount - 1 }) :
      ConnStep E w c x (.tohash c own) w' l x.o.props
  | write {key v st} {w' : World} (hi : w.frame x.z.owner = .idle)
      (hh : w.holds E x.z.owner v = true)
      (hst : w.saveZval x.z.owner v = some st)
      (hf : w'.frame x.z.owner = .fill c (x.o.props.member key) v) :
      ConnStep E w c x (.write c key v) w'
        (w.writeStore x.z.owner x.z.loc x.o.props key st).2.1
        (w.writeStore x.z.owner x.z.loc x.o.props key st).2.2
  /-- A mutator other than write, through `c`. -/
  | trim {act r} {w' : World} (hi : w.frame x.z.owner = .idle)
      (hact : mutates c act) (hb : Bumps x r)
      (hc : ∀ k, r.1.cached k = x.z.loc.cached k ∨ touches w x.s k act)
      (hsub : ∀ k v, r.1.cached k = some v → x.z.loc.cached k = some v)
      (hf : w'.frame x.z.owner = .idle
        ∨ ∃ k, w'.frame x.z.owner = .drop c k ∧ touches w x.s k act) :
      ConnStep E w c x act w' r.1 r.2
  | fill {k v} {w' : World} (hi : w.frame x.z.owner = .fill c k v)
      (hf : w'.frame x.z.owner = .idle) :
      ConnStep E w c x (.finish x.z.owner) w'
        (x.z.loc.updateLocalProperty x.z.declared k v) x.o.props
  | drop {k} {w' : World} (hi : w.frame x.z.owner = .drop c k)
      (hf : w'.frame x.z.owner = .idle) :
      ConnStep E w c x (.finish x.z.owner) w' (x.z.loc.del k) x.o.props
  /-- A full sync by the thread, which may have visited `c`. -/
  | syncs {act l} {w' : World} (hi : w.frame x.z.owner = .idle)
      (hact : (∃ c' fuel, act = .fullSync c' fuel)
        ∨ ∃ c' fuel, act = .join c' fuel)
      (hsy : Syncs E x.z.owner (· = x.z.owner) w w')
      (hl : w'.locOf c = some l) : ConnStep E w c x act w' l x.o.props

theorem baseCtor_mem {o : Addr} {scope : Scope}
    {defaults : List (List Default)} (hc : w.connecting t = none)
    (hu : w.baseCtor E t o scope defaults = some w') {c : Addr}
    (hne : c ≠ o) : w'.mem.get c = w.mem.get c := by
  have hall := writePropertyDefaults_induct (c := o) (P := fun u =>
      u.mem.get c = w.mem.get c) (w := w.tsObjectCtor E t o scope) defaults
    (fun {u k v r} _ hP hr => by
      obtain ⟨x, st, hx, -, rfl⟩ := writeLocked_some hr
      show (Heap.modify _ o _).get c = _
      rw [Heap.get_modify_ne _ _ hne]
      show (u.commit o x.s _).mem.get c = _
      rw [mem_commit, if_neg hne]
      exact hP)
    (Heap.get_modify_ne _ _ hne)
  unfold baseCtor at hu
  rw [hc] at hu
  rw [← Option.some.inj hu]
  unfold registerObject
  split
  · exact hall
  · exact (Heap.get_modify_ne _ _ hne).trans hall

/-- A frame that one thread changes, to one that is not about `c` either. -/
theorem off_update {c : Addr} {f : Frame}
    (hfr : w'.frame = Function.update w.frame t f) (h₀ : Off c (w.frame t))
    (h₁ : Off c f) (t' : ThreadId) :
    w'.frame t' = w.frame t' ∨ Off c (w.frame t') ∧ Off c (w'.frame t') := by
  rw [hfr]
  by_cases ht : t' = t
  · refine Or.inr ⟨ht ▸ h₀, ?_⟩
    rw [ht, Function.update_self]
    exact h₁
  · exact Or.inl (Function.update_of_ne ht _ _)

theorem off_ready {c c' : Addr} {y : Conn} (hy : w.ready c' = some y) :
    Off c (w.frame y.z.owner) := by
  rw [(ready_eq_some.mp hy).2]
  trivial

theorem update_idle {c : Addr} {y : Conn} (hy : w.ready c = some y) :
    Function.update w.frame y.z.owner .idle = w.frame := by
  rw [← (ready_eq_some.mp hy).2, Function.update_eq_self]

/-- The connection at `c` before a step and after it. -/
structure Pair (w w' : World) (c : Addr) (x x' : Conn) : Prop where
  conn : w.conn c = some x
  mem' : w'.mem.get c = some x'.z
  shared' : w'.shared.get x.s = some x'.o

namespace Pair

variable {act : Act} {c c' : Addr} {x x' y : Conn}

theorem mem (h : Pair w w' c x x') : w.mem.get c = some x.z :=
  (conn_eq_some.mp h.conn).1

theorem shared (h : Pair w w' c x x') : w.shared.get x.s = some x.o :=
  (conn_eq_some.mp h.conn).2.2

theorem loc (h : Pair w w' c x x') {l : Local}
    (hl : w'.mem.get c = some { x.z with loc := l }) : x'.z.loc = l := by
  rw [h.mem'] at hl
  rw [Option.some.inj hl]

theorem props (h : Pair w w' c x x') {u : World} (hu : Extends w u)
    (hsh : w'.shared = u.shared) : x'.o.props = x.o.props := by
  obtain ⟨n, hn⟩ := hu.shared h.shared
  have ho := h.shared'
  rw [hsh, hn] at ho
  rw [← Option.some.inj ho]

theorem idle (h : Pair w w' c x x') (hy : w.ready c = some y) :
    y = x ∧ w.frame x.z.owner = .idle := by
  obtain ⟨hc, hi⟩ := ready_eq_some.mp hy
  rw [h.conn] at hc
  rw [Option.some.inj hc]
  exact ⟨rfl, hi⟩

-- ------------------------------------------------- the table is as before

theorem keep (h : Pair w w' c x x') (hm : w'.mem.get c = w.mem.get c)
    (hf : w'.frame x.z.owner = w.frame x.z.owner
      ∨ Off c (w.frame x.z.owner) ∧ Off c (w'.frame x.z.owner)) :
    ConnStep E w c x act w' x'.z.loc x'.o.props := by
  have hz := h.mem'
  rw [hm, h.mem] at hz
  rw [← Option.some.inj hz]
  exact .same hf

theorem gc (h : Pair w w' c x x') {f : ZObj → ZObj}
    (hf : ∀ z, (f z).loc = z.loc) {o : Addr} (hm : w'.mem = w.mem.modify o f)
    (hfr : w'.frame = w.frame) :
    ConnStep E w c x act w' x'.z.loc x'.o.props := by
  have hz := h.mem'
  have hloc : x'.z.loc = x.z.loc := by
    rw [hm, Heap.get_modify, h.mem] at hz
    split at hz
    · rw [← Option.some.inj hz]
      exact hf x.z
    · rw [← Option.some.inj hz]
  rw [hloc]
  exact .same (Or.inl (congrFun hfr _))

theorem grow (h : Pair w w' c x x') (hg : Grow E t w w') :
    ConnStep E w c x act w' x'.z.loc x'.o.props :=
  h.keep ((hg.mem h.mem).trans h.mem.symm)
    (Or.inl (congrFun hg.extends.frame _))

-- --------------------------------------------------- a table that is synced

theorem set_here (h : Pair w w' c x x') {l : Local} {u : World}
    (hg : Grow E t (w.setLocal c l) u) (hm : w'.mem = u.mem)
    (hsh : w'.shared = u.shared) :
    x'.z.loc = l ∧ x'.o.props = x.o.props := by
  have hl : (w.setLocal c l).mem.get c = some { x.z with loc := l } := by
    rw [mem_setLocal, if_pos rfl, h.mem]
    rfl
  refine ⟨h.loc ?_, h.props
    ((extends_modify_loc w c fun _ => l).trans hg.extends) hsh⟩
  rw [hm]
  exact hg.mem hl

theorem set_other (h : Pair w w' c x x') (hc : c' ≠ c) {l : Local} {u : World}
    (hg : Grow E t (w.setLocal c' l) u) (hm : w'.mem = u.mem) :
    w'.mem.get c = w.mem.get c := by
  rw [hm, h.mem]
  refine hg.mem ?_
  rw [mem_setLocal, if_neg (fun he => hc he.symm)]
  exact h.mem

/-- A read that leaves nothing to be filled in. -/
theorem read (h : Pair w w' c x x') {k : Key} {access : Access}
    (hy : w.ready c' = some y)
    (hg : Grow E t (w.setLocal c' (w.readSync y)) w') :
    ConnStep E w c x (.read c' k access) w' x'.z.loc x'.o.props := by
  have hfr : w'.frame = w.frame := hg.extends.frame
  by_cases hc : c' = c
  · subst hc
    obtain ⟨rfl, hi⟩ := h.idle hy
    obtain ⟨h1, h2⟩ := h.set_here hg rfl rfl
    rw [h1, h2]
    exact .read hi ((congrFun hfr _).trans hi)
  · exact h.keep (h.set_other hc hg rfl) (Or.inl (congrFun hfr _))

theorem readFill {u : World} {v : Zval} {k : Key}
    (h : Pair w (u.setFrame y.z.owner (.fill c' k v)) c x x')
    {access : Access} {st : Storage} (hcon : w.connecting y.z.owner = none)
    (hy : w.ready c' = some y) (hn : (w.readSync y).cached k = none)
    (hst : y.o.props.hash.find k = some st)
    (hr : (w.setLocal c' (w.readSync y)).restoreZval E y.z.owner st
      = (.value v, u)) :
    ConnStep E w c x (.read c' k access)
      (u.setFrame y.z.owner (.fill c' k v)) x'.z.loc x'.o.props := by
  have hg := grow_of_restored hr hcon
  by_cases hc : c' = c
  · subst hc
    obtain ⟨rfl, hi⟩ := h.idle hy
    obtain ⟨h1, h2⟩ := h.set_here hg rfl rfl
    rw [h1, h2]
    exact .readFill hi hn hst hr
  · refine h.keep (h.set_other hc hg rfl)
      (off_update (f := .fill c' k v) ?_ (off_ready hy) hc _)
    show Function.update u.frame _ _ = _
    rw [hg.extends.frame]
    rfl

theorem sync (h : Pair w w' c x x') (hy : w.ready c' = some y)
    (hw : w' = w.setLocal c' (w.syncLocal y.z.owner y.o.props y.z.loc)) :
    ConnStep E w c x (.sync c') w' x'.z.loc x'.o.props := by
  subst hw
  by_cases hc : c' = c
  · subst hc
    obtain ⟨rfl, hi⟩ := h.idle hy
    obtain ⟨h1, h2⟩ := h.set_here (E := E) (t := y.z.owner) .refl rfl rfl
    rw [h1, h2]
    exact .sync hi hi
  · exact h.keep (h.set_other (E := E) (t := y.z.owner) hc .refl rfl) (Or.inl rfl)

theorem tohash (h : Pair w w' c x x') (hcon : w.connecting y.z.owner = none)
    {own : Bool} {r : List (Key × Zval) × World} {l : Local}
    (hy : w.ready c' = some y)
    (hr : w.restoreAll E y.z.owner
      (uncached (w.tohashSync y) y.o.props.hash) = some r)
    (hl : l = w.tohashSync y
      ∨ own = true ∧ l = { addIndirect y.z.declared
          (putAll y.z.declared (w.tohashSync y) r.1) with
          modcount := y.o.props.modcount - 1 })
    (hw : w' = r.2.setLocal c' l) :
    ConnStep E w c x (.tohash c' own) w' x'.z.loc x'.o.props := by
  subst hw
  have hg := restoreAll_grow _ hcon hr
  have hfr : (r.2.setLocal c' l).frame = w.frame := hg.extends.frame
  by_cases hc : c' = c
  · subst hc
    obtain ⟨rfl, hi⟩ := h.idle hy
    have hm := edit_setLocal (hg.mem h.mem) l
    rw [h.loc ((hm.mem c').trans (if_pos rfl)), h.props hg.extends rfl]
    exact .tohash hi ((congrFun hfr _).trans hi) hr hl
  · refine h.keep ?_ (Or.inl (congrFun hfr _))
    rw [mem_setLocal, if_neg (fun he => hc he.symm), hg.mem h.mem, h.mem]

-- -------------------------------------------------------------- a commit

theorem committed (h : Pair w w' c x x') {u : World}
    {r : Local × Store Storage} (hg : Grow E t w u)
    (hm : w'.mem = (u.commit c x.s r).mem)
    (hsh : w'.shared = (u.commit c x.s r).shared) :
    x'.z.loc = r.1 ∧ x'.o.props = r.2 := by
  obtain ⟨n, hn⟩ := hg.extends.shared h.shared
  refine ⟨h.loc ?_, ?_⟩
  · rw [hm, mem_commit, if_pos rfl, hg.mem h.mem]
    rfl
  · have ho := h.shared'
    rw [hsh, shared_commit, if_pos rfl, hn] at ho
    rw [← Option.some.inj ho]

/-- A commit through another connection. -/
theorem commit_other (h : Pair w w' c x x') {u : World}
    {r : Local × Store Storage} {f : Frame} (hc : c' ≠ c)
    (hy : w.ready c' = some y) (hg : Grow E t w u) (hoff : Off c f)
    (hm : w'.mem = (u.commit c' y.s r).mem)
    (hfr : w'.frame = Function.update w.frame y.z.owner f) :
    ConnStep E w c x act w' x'.z.loc x'.o.props := by
  refine h.keep ?_ (off_update hfr (off_ready hy) hoff _)
  rw [hm, mem_commit, if_neg (fun he => hc he.symm), hg.mem h.mem, h.mem]

theorem write (h : Pair w w' c x x') {key : Option Key} {v : Zval}
    {st : Storage} (hy : w.ready c' = some y)
    (hh : w.holds E y.z.owner v = true)
    (hst : w.saveZval y.z.owner v = some st)
    (hw : w' = (w.commit c' y.s
      (w.writeStore y.z.owner y.z.loc y.o.props key st).2).setFrame
        y.z.owner (.fill c' (y.o.props.member key) v)) :
    ConnStep E w c x (.write c' key v) w' x'.z.loc x'.o.props := by
  subst hw
  by_cases hc : c' = c
  · subst hc
    obtain ⟨rfl, hi⟩ := h.idle hy
    obtain ⟨h1, h2⟩ := h.committed (E := E) (t := y.z.owner) .refl rfl rfl
    rw [h1, h2]
    exact .write hi hh hst (frame_setFrame _ _ _)
  · exact h.commit_other (E := E) (t := y.z.owner) hc hy .refl
      (f := .fill c' _ v) hc rfl rfl

theorem delete (h : Pair w w' c x x') {k : Key} (hy : w.ready c' = some y)
    (hw : w' = (w.commit c' y.s
      (bumpIf (memberIsCacheable y.o.props.hash k) y.z.loc
        (y.o.props.delete k))).setFrame y.z.owner (.drop c' k)) :
    ConnStep E w c x (.delete c' k) w' x'.z.loc x'.o.props := by
  subst hw
  by_cases hc : c' = c
  · subst hc
    obtain ⟨rfl, hi⟩ := h.idle hy
    obtain ⟨h1, h2⟩ := h.committed (E := E) (t := y.z.owner) .refl rfl rfl
    have htouch : touches w y.s k (.delete c' k) := by
      refine ⟨rfl, ?_⟩
      unfold tsOf
      rw [h.mem]
      exact (conn_eq_some.mp h.conn).2.1
    rw [h1, h2]
    refine .trim hi rfl (bumps_delete y k) (fun k' => ?_) (fun k' v' hv => ?_)
      (Or.inr ⟨k, frame_setFrame _ _ _, htouch⟩)
    · exact Or.inl (bumpIf_cached _ _ _ _)
    · rw [bumpIf_cached] at hv
      exact hv
  · exact h.commit_other (E := E) (t := y.z.owner) hc hy .refl (f := .drop c' k) hc
      rfl rfl

/-- A mutator that leaves no frame. -/
theorem trims (h : Pair w w' c x x') {u : World} {r : Local × Store Storage}
    (hg : Grow E t w u) (hy : w.ready c' = some y) (hact : mutates c' act)
    (hb : Bumps y r)
    (hcache : ∀ k, r.1.cached k = y.z.loc.cached k ∨ touches w y.s k act)
    (hsub : ∀ k v, r.1.cached k = some v → y.z.loc.cached k = some v)
    (hw : w' = u.commit c' y.s r) :
    ConnStep E w c x act w' x'.z.loc x'.o.props := by
  subst hw
  have hfr : (u.commit c' y.s r).frame = w.frame := hg.extends.frame
  by_cases hc : c' = c
  · subst hc
    obtain ⟨rfl, hi⟩ := h.idle hy
    obtain ⟨h1, h2⟩ := h.committed hg rfl rfl
    rw [h1, h2]
    exact .trim hi hact hb hcache hsub (Or.inl ((congrFun hfr _).trans hi))
  · exact h.commit_other hc hy hg (f := .idle) trivial rfl
      (hfr.trans (update_idle hy).symm)

-- ------------------------------------------------------- finish, full sync

theorem edited (h : Pair w w' c x x') {f : ZObj → Local}
    (hm : w'.mem = w.mem.modify c fun z => { z with loc := f z })
    (hsh : w'.shared = w.shared) :
    x'.z.loc = f x.z ∧ x'.o.props = x.o.props := by
  refine ⟨h.loc ?_, h.props (.refl w) hsh⟩
  rw [hm, Heap.get_modify, if_pos rfl, h.mem]
  rfl

/-- The step that the frame `f` of thread `t` waits for. -/
theorem finish (h : Pair w w' c x x') (hs : Skel w) {f : ZObj → Local}
    {k : Key} {v : Zval}
    (hf : w.frame t = .fill c' k v
        ∧ f = (fun z => z.loc.updateLocalProperty z.declared k v)
      ∨ w.frame t = .drop c' k ∧ f = fun z => z.loc.del k)
    (hm : w'.mem = w.mem.modify c' fun z => { z with loc := f z })
    (hsh : w'.shared = w.shared)
    (hfr : w'.frame = Function.update w.frame t .idle) :
    ConnStep E w c x (.finish t) w' x'.z.loc x'.o.props := by
  have hfo := hs.frames t
  by_cases hc : c' = c
  · subst hc
    obtain ⟨h1, h2⟩ := h.edited hm hsh
    rw [h1, h2]
    rcases hf with ⟨hf, rfl⟩ | ⟨hf, rfl⟩
    all_goals
      rw [hf] at hfo
      obtain ⟨zc, sc, hzc, hoc, -⟩ := hfo
      rw [h.mem] at hzc
      have ht : x.z.owner = t := Option.some.inj hzc ▸ hoc
      subst ht
    · exact .fill hf (hfr ▸ Function.update_self _ _ _)
    · exact .drop hf (hfr ▸ Function.update_self _ _ _)
  · refine h.keep ?_ (off_update hfr ?_ trivial _)
    · rw [hm]
      exact Heap.get_modify_ne _ _ fun he => hc he.symm
    · rcases hf with ⟨hf, -⟩ | ⟨hf, -⟩
      · rw [hf]
        exact hc
      · rw [hf]
        exact hc

theorem syncs (h : Pair w w' c x x') (hs : Skel w)
    (hact : (∃ c' fuel, act = .fullSync c' fuel)
      ∨ ∃ c' fuel, act = .join c' fuel)
    (hi : w.frame t = .idle) (hsy : Syncs E t (· = t) w w') :
    ConnStep E w c x act w' x'.z.loc x'.o.props := by
  have hext := hsy.extends (hs.connecting t)
  by_cases ht : x.z.owner = t
  · subst ht
    rw [h.props hext rfl]
    refine .syncs hi hact hsy ?_
    unfold locOf
    rw [h.mem']
    rfl
  · exact h.keep (((hsy.by hs).mem h.mem ht).trans h.mem.symm)
      (Or.inl (congrFun hext.frame _))

end Pair

/-- What a step does to the local table of a connection that it does not
free. -/
theorem step_local {act : Act} (hs : Skel w) (hown : OwnInv w)
    (hstep : step E w act = some w') {c : Addr} {x x' : Conn}
    (hx : w.conn c = some x) (hx' : w'.conn c = some x')
    (hnf : ¬ freesAt w c act) :
    ConnStep E w c x act w' x'.z.loc x'.o.props := by
  have hcon := fun t => hs.connecting t
  have hss : x'.s = x.s := by
    rcases step_conn hs hown hstep hx with hf | ⟨x'', hx'', -, hs'', -⟩
    · exact absurd hf hnf
    · rw [hx''] at hx'
      rw [← Option.some.inj hx']
      exact hs''
  obtain ⟨hz', -, ho'⟩ := conn_eq_some.mp hx'
  have h : Pair w w' c x x' := ⟨hx, hz', hss ▸ ho'⟩
  cases step_effect hstep with
  | newString _ => exact h.grow (.single (.string _))
  | freeString _ => exact h.keep rfl (Or.inl rfl)
  | newClosure _ => exact h.grow (t := 0) (.single (.closure _))
  | freeClosure => exact h.keep rfl (Or.inl rfl)
  | @alloc t declared scope defaults hf _ =>
      refine h.keep ((get_objectAlloc h.mem).trans h.mem.symm)
        (off_update (f := .allocated _ scope defaults) rfl ?_ trivial _)
      rw [hf]
      trivial
  | @ctor t o scope defaults u hf hu =>
      have hfo := hs.frames t
      rw [hf] at hfo
      obtain ⟨zo, hzo, -, htso⟩ := hfo
      -- the object under construction is no connection yet
      have hne : c ≠ o := by
        intro hc
        have hz := h.mem
        rw [hc, hzo] at hz
        have hts := (conn_eq_some.mp hx).2.1
        rw [← Option.some.inj hz, htso] at hts
        cases hts
      have hfr : u.frame = w.frame := (baseCtor_same hs hzo hu).2
      refine h.keep (baseCtor_mem (hcon t) hu hne)
        (off_update (t := t) (f := .idle) ?_ ?_ trivial _)
      · show Function.update u.frame t .idle = _
        rw [hfr]
      · rw [hf]
        trivial
  | @connect t o _ => exact h.grow (objectConnect_grow (hcon t) o)
  | bindGlobals _ => exact h.keep rfl (Or.inl rfl)
  | @addGarbage y o _ _ _ _ _ _ _ =>
      exact h.gc (f := fun z => { z with gc := z.gc ++ [o] }) (fun _ => rfl)
        rfl rfl
  | collect _ =>
      exact h.gc (f := fun z => { z with gc := z.gc.tail }) (fun _ => rfl) rfl
        rfl
  | @release t batch hb =>
      refine h.keep rfl (off_update (f := .freeing batch) rfl ?_ trivial _)
      rw [(canRelease_spec hb).1]
      trivial
  | @baseFree t o batch u hf hu =>
      obtain ⟨so, htsOf, hres, oo, hoo'⟩ := hs.freeing hf
      obtain ⟨hm, -, -, hfr, -⟩ := baseFree_mem htsOf hoo' hres hu
      have hne : c ≠ o := fun hc => hnf ⟨t, batch, rfl, hc ▸ hf⟩
      refine h.keep ?_ (off_update (t := t)
        (f := if batch.isEmpty then .idle else .freeing batch) ?_ ?_ ?_ _)
      · show u.mem.get c = _
        rw [hm, Heap.get_free, if_neg hne]
      · show Function.update u.frame t _ = _
        rw [hfr]
      · rw [hf]
        trivial
      · split <;> trivial
  | @readCached c' k access y v hy hv => exact h.read (t := 0) hy .refl
  | @readNothing c' k access y hy => exact h.read (t := 0) hy .refl
  | @readThrew c' k access y st u hy hr =>
      have hg := grow_of_restored hr (hcon y.z.owner)
      exact h.read hy hg
  | readRestored hy hn hst hr => exact h.readFill (hcon _) hy hn hst hr
  | write hy hh hst => exact h.write hy hh hst rfl
  | delete hy _ => exact h.delete hy rfl
  | @deleteNothing c' k y hy hk =>
      by_cases hc : c' = c
      · subst hc
        obtain ⟨rfl, hi⟩ := h.idle hy
        obtain ⟨h1, -⟩ := h.committed (E := E) (t := 0) .refl rfl rfl
        rw [h1]
        exact .same (Or.inl rfl)
      · exact h.commit_other (E := E) (t := 0) hc hy .refl (f := .idle)
          trivial rfl (update_idle hy).symm
  | fill hf => exact h.finish hs (Or.inl ⟨hf, rfl⟩) rfl rfl rfl
  | drop hf => exact h.finish hs (v := .null) (Or.inr ⟨hf, rfl⟩) rfl rfl rfl
  | @take act c' y e p r u hy ht hr _ =>
      have hg := grow_of_restored hr (hcon y.z.owner)
      refine h.trims hg hy (by rcases ht with ⟨rfl, -⟩ | ⟨rfl, -⟩ <;> rfl)
        (bumps_afterTake ht.takes) (fun k => ?_)
        (fun k v hv => (trims_afterTake ht.takes).cached hv) rfl
      rw [(afterTake_spec ht.takes k).2]
      split
      case isTrue hk =>
        have hc := (ready_eq_some.mp hy).1
        refine Or.inr ?_
        rcases ht with ⟨hact, hsh⟩ | ⟨hact, hsh⟩
        · rw [hact]
          exact ⟨y, hc, rfl, by rw [hsh, hk]; rfl⟩
        · rw [hact]
          exact ⟨y, hc, rfl, by rw [hsh, hk]; rfl⟩
      case isFalse => exact Or.inl rfl
  | takeNothing _ _ => exact h.keep rfl (Or.inl rfl)
  | @chunk c' size y r hy hr =>
      refine h.trims (restoreAll_grow _ (hcon y.z.owner) hr) hy rfl
        (bumps_afterChunk y size) (fun k => ?_)
        (fun k v hv => (trims_afterChunk y size).cached hv) rfl
      rw [(afterChunk_spec y size k).2]
      split
      case isTrue hk => exact Or.inr ⟨y, (ready_eq_some.mp hy).1, rfl, hk⟩
      case isFalse => exact Or.inl rfl
  | @merge c' source overwrite y y₂ es hy hy₂ hes =>
      have hnd := hardCopyAll_nodup hes
      refine h.trims (E := E) (t := 0) .refl hy rfl
        (bumps_afterMerge y overwrite hnd) (fun k => ?_)
        (fun k v hv => (trims_afterMerge overwrite hes).cached hv) rfl
      rcases afterMerge_spec y overwrite hnd k with ⟨st, hw, -⟩ | ⟨-, -, h3⟩
      · exact Or.inr ⟨y, y₂, (ready_eq_some.mp hy).1,
          (ready_eq_some.mp hy₂).1, rfl, hardCopyAll_contains hes hw.1, hw.2⟩
      · exact Or.inl h3
  | tohash hy hr hl => exact h.tohash (hcon _) hy hr hl rfl
  | sync hy => exact h.sync hy rfl
  | @fullSync c' y fuel u hy hu =>
      obtain ⟨hc, hi⟩ := ready_eq_some.mp hy
      exact h.syncs hs (Or.inl ⟨c', fuel, rfl⟩) hi
        (fullSync_syncs visits_own fuel ⟨hs, hown y.z.owner, hi⟩
          ⟨y.z, (conn_eq_some.mp hc).1, rfl⟩ hu).1
  | @join c' y fuel u hy hu =>
      obtain ⟨hc, hi⟩ := ready_eq_some.mp hy
      exact h.syncs hs (Or.inr ⟨c', fuel, rfl⟩) hi
        (joinSync_syncs visits_own ⟨hs, hown y.z.owner, hi⟩
          ⟨y.z, (conn_eq_some.mp hc).1, rfl⟩
          (fun g hg => (hown y.z.owner).globals hg) hu)

end PmmpThread.Model.World
