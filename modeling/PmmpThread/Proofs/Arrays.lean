/-
A ThreadSafeArray is one array that all threads see: in every
interleaving of any threads' steps, what a store holds and what is taken
out of it are what an insertion-ordered array does with the calls of its
history, one after the other (`run_array`).

# The argument

The table half of every call does to the array what `exec` says, given
`BoundsInv` (`Store.apply_step`); a pop whose cached `last` is past the
end is the one that may miss. A step of the world edits a live store by
its own call, by a free that makes strings persistent, or not at all
(`step_edited`), and both keep `BoundsInv` (`Reachable.bounded`). That a
persistent copy stands for the same value is `OwnInv`.

# As a channel

So what the array does as a channel, any number of producers and
consumers may rely on (`run_transfers`).
-/
import PmmpThread.Model.Arrays
import PmmpThread.Proofs.Append
import PmmpThread.Proofs.MergePaths

namespace PmmpThread.Model

open Zend

-- ========================================================== of a store

namespace Store

open Zend.HashTable

variable {V W : Type}

theorem nextFree_chunkLoop (n : Nat) : ∀ (s : Store V) (pos : Nat),
    (chunkLoop n pos s).2.hash.nextFree = s.hash.nextFree := by
  induction n with
  | zero => exact fun _ _ => rfl
  | succ n ih =>
      intro s pos
      rw [chunkLoop]
      cases s.hash.getCurrent pos with
      | none => rfl
      | some e => exact ih _ _

theorem nextFree_shift (s : Store V) :
    s.shift.2.hash.nextFree = s.hash.nextFree := by
  unfold shift
  cases s.hash.getCurrent s.firstPos <;> rfl

theorem nextFree_pop (s : Store V) :
    s.pop.2.hash.nextFree = s.hash.nextFree := by
  unfold pop
  cases s.hash.getCurrent s.lastPos <;> rfl

theorem toArray_mergeEntry (overwrite : Bool) (compact : Key → Bool)
    (t : HashTable V) (e : Key × V) :
    (mergeEntry overwrite compact t e).toArray
      = OrderedArray.mergeEntry overwrite t.toArray e := by
  unfold mergeEntry OrderedArray.mergeEntry
  rw [keys_toArray]
  by_cases h : overwrite = false ∧ e.1 ∈ t.entries.map Prod.fst
  · rw [if_pos h, if_pos]
    rw [h.1, contains_iff.mpr h.2]
    rfl
  · rw [if_neg h, if_neg, toArray_update]
    rw [Bool.and_eq_true, Bool.not_eq_true', contains_iff]
    exact h

theorem toArray_merge (overwrite : Bool) (compact : Key → Bool)
    (es : List (Key × V)) : ∀ t : HashTable V,
      (es.foldl (mergeEntry overwrite compact) t).toArray
        = t.toArray.merge es overwrite := by
  induction es with
  | nil => exact fun _ => rfl
  | cons e es ih =>
      intro t
      rw [List.foldl_cons, ih, toArray_mergeEntry]
      rfl

/-- One call on a store is the call on its array, and takes out the same
entries, if a pop finds `last` right. -/
theorem apply_exact {s : Store V} (h : BoundsInv s) {op : Op V}
    (hpop : op = .pop → LastInv s) :
    s.hash.toArray.exec op.call
      = (s.taken op, (s.apply op).hash.toArray) := by
  cases op with
  | write k v compact =>
      refine Prod.ext rfl ?_
      show s.hash.toArray.put k v = (s.write (some k) v compact).hash.toArray
      rw [write_hash, ← toArray_update compact]
      rfl
  | append v compact =>
      refine Prod.ext rfl ?_
      show s.hash.toArray.push v = (s.write none v compact).hash.toArray
      rw [write_hash]
      exact (toArray_update compact s.hash s.hash.nextKey v).symm
  | delete k => exact Prod.ext rfl (toArray_del s.hash k).symm
  | merge src overwrite compact =>
      exact Prod.ext rfl (toArray_merge overwrite compact src s.hash).symm
  | reset =>
      refine Prod.ext rfl ?_
      show _ = s.reset.2.hash.toArray
      rw [(reset_spec h.first).2.1]
      rfl
  | chunk size =>
      obtain ⟨htaken, hleft, -⟩ := chunk_spec h.first size
      exact Prod.ext htaken.symm
        (OrderedArray.ext hleft.symm (nextFree_chunkLoop ..).symm)
  | shift =>
      obtain ⟨htaken, hleft⟩ := shift_spec h.first
      refine Prod.ext ?_ (OrderedArray.ext ?_ (nextFree_shift s).symm)
      · show s.hash.entries.take 1 = s.shift.1.toList
        rw [htaken]
        cases s.hash.entries <;> rfl
      · show s.hash.entries.drop 1 = s.shift.2.hash.entries
        rw [hleft, List.drop_one]
  | pop =>
      obtain ⟨htaken, hleft⟩ := pop_spec (hpop rfl)
      refine Prod.ext ?_ (OrderedArray.ext hleft.symm (nextFree_pop s).symm)
      show s.hash.entries.getLast?.toList = s.pop.1.toList
      rw [htaken]

/-- At worst a pop misses. -/
theorem apply_step {s : Store V} (h : BoundsInv s) (op : Op V) :
    OrderedArray.Step s.hash.toArray (op.call, s.taken op)
      (s.apply op).hash.toArray := by
  by_cases hmiss : op = .pop ∧ s.pop = (none, s)
  · obtain ⟨rfl, hmiss⟩ := hmiss
    have htaken : s.taken .pop = [] := by
      show s.pop.1.toList = []
      rw [hmiss]
      rfl
    have hleft : s.apply .pop = s := by
      show s.pop.2 = s
      rw [hmiss]
    rw [htaken, hleft]
    exact .missed
  · have hexact : s.hash.toArray.exec op.call = _ := apply_exact h fun hop =>
      (pop_cases h.last).resolve_right fun hnone => hmiss ⟨hop, hnone⟩
    have hstep := OrderedArray.Step.exact (a := s.hash.toArray) op.call
    rw [hexact] at hstep
    exact hstep

-- ================================================== tables and bounds

/-- Equal but for the modification count. -/
structure SameTable (p q : Store V) : Prop where
  hash : p.hash = q.hash
  first : p.first = q.first
  last : p.last = q.last

theorem SameTable.refl (p : Store V) : SameTable p p := ⟨rfl, rfl, rfl⟩

theorem LastInv.same {p q : Store V} (h : LastInv q) (hs : SameTable p q) :
    LastInv p := by
  intro l hl
  rw [hs.hash]
  exact h l (hs.last ▸ hl)

theorem BoundsInv.same {p q : Store V} (h : BoundsInv q)
    (hs : SameTable p q) : BoundsInv p := by
  refine ⟨fun f hf => ?_, fun l hl => ?_⟩
  · rw [hs.hash]
    exact h.first f (hs.first ▸ hf)
  · rw [hs.hash]
    exact h.last l (hs.last ▸ hl)

theorem getValidPos_mapVal (f : V → W) (t : HashTable V) (pos : Nat) :
    (t.mapVal f).getValidPos pos = t.getValidPos pos := by
  unfold getValidPos mapVal
  rw [← List.map_drop, List.takeWhile_map, List.length_map]
  have hnone : Option.isNone ∘ Option.map (fun e : Key × V => (e.1, f e.2))
      = Option.isNone := by
    funext e
    cases e <;> rfl
  rw [hnone]

theorem numUsed_mapVal (f : V → W) (t : HashTable V) :
    (t.mapVal f).numUsed = t.numUsed := List.length_map ..

theorem LastInv.mapVal {s : Store V} (h : LastInv s) (f : V → V) :
    LastInv { s with hash := s.hash.mapVal f } :=
  fun l hl => (numUsed_mapVal f s.hash).trans (h l hl)

/-- Values are rewritten in their slots. -/
theorem BoundsInv.mapVal {s : Store V} (h : BoundsInv s) (f : V → V) :
    BoundsInv { s with hash := s.hash.mapVal f } := by
  refine ⟨fun p hp => ?_, fun l hl =>
    Nat.le_trans (Nat.le_of_eq (numUsed_mapVal f s.hash)) (h.last l hl)⟩
  obtain ⟨hne, heq⟩ := h.first p hp
  refine ⟨?_, heq.trans (getValidPos_mapVal f s.hash 0).symm⟩
  rw [entries_mapVal]
  intro hnil
  exact hne (List.map_eq_nil_iff.mp hnil)

end Store

-- ========================================================= of a ts_obj

namespace World

open Store

variable {E : Engine} {t : ThreadId} {w w' u : World} {s : TsAddr}
  {o o' : TsObj} {act : Act} {acts : List Act}

theorem sameTable_bumpIf (b : Bool) (l : Local) (p : Store Storage) :
    SameTable (bumpIf b l p).2 p := by
  unfold bumpIf bumpModcount
  cases b with
  | true => exact ⟨rfl, rfl, rfl⟩
  | false => exact .refl p

/-- What a step does to a store that is there before and after. -/
inductive Edited (w : World) (s : TsAddr) (act : Act) (p : Store Storage) :
    Store Storage → Prop
  | kept {p'} (hop : w.opOn s act = none) (h : SameTable p' p) :
      Edited w s act p p'
  | called {op p'} (hop : w.opOn s act = some op)
      (h : SameTable p' (p.apply op)) : Edited w s act p p'
  | persisted (r : ThreadId) (hop : w.opOn s act = none) :
      Edited w s act p { p with hash := p.hash.mapVal (w.persistStorage r) }

/-- The store that a ts_obj has after a commit through `c`. -/
theorem commit_cases (hg : Grow E t w u) {c : Addr} {x : Conn}
    (hx : w.conn c = some x) {r : Local × Store Storage}
    (ho : w.shared.get s = some o)
    (ho' : (u.commit c x.s r).shared.get s = some o') :
    s = x.s ∧ o.props = x.o.props ∧ o'.props = r.2
      ∨ s ≠ x.s ∧ o'.props = o.props := by
  obtain ⟨n, hn⟩ := hg.extends.shared ho
  rw [shared_commit, hn] at ho'
  by_cases hs : s = x.s
  · rw [if_pos hs] at ho'
    obtain ⟨-, -, hxo⟩ := conn_eq_some.mp hx
    rw [hs, hxo] at ho
    rw [← Option.some.inj ho, ← Option.some.inj ho']
    exact Or.inl ⟨hs, rfl, rfl⟩
  · rw [if_neg hs] at ho'
    rw [← Option.some.inj ho']
    exact Or.inr ⟨hs, rfl⟩

/-- A call through `c` edits the store of its ts_obj and no other. -/
theorem Edited.commit (hg : Grow E t w u) {c : Addr} {x : Conn}
    (hx : w.conn c = some x) {r : Local × Store Storage}
    {op : Store.Op Storage}
    (hop : w.opOn s act = if x.s = s then some op else none)
    (hr : SameTable r.2 (x.o.props.apply op))
    (ho : w.shared.get s = some o)
    (ho' : (u.commit c x.s r).shared.get s = some o') :
    Edited w s act o.props o'.props := by
  rcases commit_cases hg hx ho ho' with ⟨hs, hp, hp'⟩ | ⟨hs, hp⟩
  · refine .called (hop.trans (if_pos hs.symm)) ?_
    rw [hp', hp]
    exact hr
  · rw [hp]
    exact .kept (hop.trans (if_neg (Ne.symm hs))) (.refl _)

/-- How a shift or a pop ends. -/
theorem takeEntry_cases {c : Addr} {x : Conn}
    {r : Option (Key × Storage) × Store Storage} {res : Restored × World}
    (h : w.takeEntry E c x r = some res) :
    r.1 = none ∧ res = (.value .null, w)
      ∨ ∃ e v u, r.1 = some e
        ∧ w.restoreZval E x.z.owner e.2 = (v, u) ∧ v ≠ .fault
        ∧ res = (v, u.commit c x.s (bumpIf (storageIsCacheable (some e.2))
            (x.z.loc.del e.1) r.2)) := by
  unfold takeEntry at h
  cases hr : r.1 with
  | none =>
      rw [hr] at h
      exact Or.inl ⟨rfl, (Option.some.inj h).symm⟩
  | some e =>
      rcases hrest : w.restoreZval E x.z.owner e.2 with ⟨v, u⟩
      simp only [hr, hrest] at h
      refine Or.inr ⟨e, v, u, rfl, hrest, ?_⟩
      cases v with
      | fault => cases h
      | value v => exact ⟨(by intro hv; cases hv), (Option.some.inj h).symm⟩
      | failed => exact ⟨(by intro hv; cases hv), (Option.some.inj h).symm⟩

/-- A shift or a pop edits the store as its table half does. -/
theorem Edited.take (hs : Skel w) {c : Addr} {x : Conn}
    (hx : w.conn c = some x) {r : Option (Key × Storage) × Store Storage}
    {op : Store.Op Storage} {res : Restored × World}
    (hop : w.opOn s act = if x.s = s then some op else none)
    (happly : x.o.props.apply op = r.2)
    (hnone : r.1 = none → r.2 = x.o.props)
    (h : w.takeEntry E c x r = some res)
    (ho : w.shared.get s = some o) (ho' : res.2.shared.get s = some o') :
    Edited w s act o.props o'.props := by
  rcases takeEntry_cases h with ⟨hnil, rfl⟩ | ⟨e, v, u, -, hr, -, rfl⟩
  · rw [ho] at ho'
    rw [← Option.some.inj ho']
    by_cases hxs : x.s = s
    · obtain ⟨-, -, hxo⟩ := conn_eq_some.mp hx
      rw [hxs, ho] at hxo
      rw [Option.some.inj hxo]
      refine .called (hop.trans (if_pos hxs)) ?_
      rw [happly, hnone hnil]
      exact .refl _
    · exact .kept (hop.trans (if_neg hxs)) (.refl _)
  · have hg := grow_of_restored hr (hs.connecting x.z.owner)
    refine Edited.commit hg hx hop ?_ ho ho'
    rw [happly]
    exact sameTable_bumpIf _ _ _

theorem shift_none {V : Type} {p : Store V} (h : p.shift.1 = none) :
    p.shift.2 = p := by
  unfold Store.shift at h ⊢
  cases hc : p.hash.getCurrent p.firstPos with
  | none => rfl
  | some e =>
      rw [hc] at h
      cases h

theorem pop_none {V : Type} {p : Store V} (h : p.pop.1 = none) :
    p.pop.2 = p := by
  unfold Store.pop at h ⊢
  cases hc : p.hash.getCurrent p.lastPos with
  | none => rfl
  | some e =>
      rw [hc] at h
      cases h

theorem mergeLoop_hash (overwrite : Bool) (es : List (Key × Storage)) :
    ∀ (h : HashTable Storage) (l : Local) (b : Bool),
      (mergeLoop overwrite es (h, l, b)).1
        = es.foldl (Store.mergeEntry overwrite fun _ => true) h := by
  induction es with
  | nil => exact fun _ _ _ => rfl
  | cons e es ih =>
      intro h l b
      unfold mergeLoop
      rw [List.foldl_cons]
      by_cases hskip : (!overwrite && h.contains e.1) = true
      · rw [if_pos hskip, ih]
        unfold Store.mergeEntry
        rw [if_pos hskip]
      · rw [if_neg hskip, ih]
        unfold Store.mergeEntry
        rw [if_neg hskip]

/-- A free leaves a store, or makes its strings persistent. -/
theorem Edited.baseFree (hs : Skel w) {a : Addr} {batch : List Addr}
    (hf : w.frame t = .freeing (a :: batch))
    (hu : w.baseFree t a = some u) (ho : w.shared.get s = some o)
    (ho' : u.shared.get s = some o') :
    Edited w s (.baseFree t) o.props o'.props := by
  obtain ⟨so, hts, hres, oo, hoo⟩ := hs.freeing hf
  rcases baseFree_cases hts hoo hres hu with ⟨-, rfl⟩ | ⟨-, -, rfl⟩
  · change (w.shared.free so).get s = some o' at ho'
    rw [Heap.get_free] at ho'
    by_cases hss : s = so
    · rw [if_pos hss] at ho'
      cases ho'
    · rw [if_neg hss, ho] at ho'
      rw [← Option.some.inj ho']
      exact .kept rfl (.refl _)
  · change (w.persisted t so oo).get s = some o' at ho'
    rw [get_persisted hoo] at ho'
    by_cases hss : s = so
    · rw [if_pos hss] at ho'
      rw [hss, hoo] at ho
      rw [← Option.some.inj ho', ← Option.some.inj ho]
      exact .persisted t rfl
    · rw [if_neg hss, ho] at ho'
      rw [← Option.some.inj ho']
      exact .kept rfl (.refl _)

theorem opOn_conn {c : Addr} {x : Conn} (hx : w.ready c = some x)
    {f : Conn → Option (Store.Op Storage)} :
    (w.conn c).bind f = f x := by
  rw [(ready_eq_some.mp hx).1]
  rfl

/-- What a step does to a store that is there before and after. -/
theorem step_edited (hs : Skel w) (hstep : step E w act = some w')
    (ho : w.shared.get s = some o) (ho' : w'.shared.get s = some o') :
    Edited w s act o.props o'.props := by
  have hcon := fun t => hs.connecting t
  have hself : Grow E 0 w w := .refl
  have hprops : ∀ {u : World}, w.opOn s act = none →
      (u.shared.get s).map TsObj.props = (w.shared.get s).map TsObj.props →
      u.shared.get s = some o' → Edited w s act o.props o'.props := by
    intro u hop hp hou
    rw [ho, hou] at hp
    exact .kept hop (Option.some.inj hp ▸ .refl _)
  have hkeep : w.opOn s act = none → w.shared.get s = some o' →
      Edited w s act o.props o'.props := fun hop => hprops hop rfl
  have hset : ∀ {c : Addr} {l : Local} {a : ThreadId} {u : World},
      w.opOn s act = none → Grow E a (w.setLocal c l) u →
      u.shared.get s = some o' → Edited w s act o.props o'.props :=
    fun hop hg => hprops hop (hg.props s)
  -- a shift or a pop, whether it takes an entry or not
  have htake : ∀ {c x}, w.ready c = some x →
      act = .shift c ∨ act = .pop c →
      Edited w s act o.props o'.props := by
    intro c x hx hact
    obtain ⟨hc, -⟩ := ready_eq_some.mp hx
    rcases hact with rfl | rfl
    · obtain ⟨y, hy, hstep⟩ := Option.bind_eq_some_iff.mp hstep
      obtain ⟨res, hres, rfl⟩ := Option.map_eq_some_iff.mp hstep
      unfold storeShift at hres
      rw [hc, Option.bind_some] at hres
      have hop : w.opOn s (.shift c) = if x.s = s then some .shift else none :=
        opOn_conn hx
      exact Edited.take hs hc hop rfl shift_none hres ho ho'
    · obtain ⟨y, hy, hstep⟩ := Option.bind_eq_some_iff.mp hstep
      obtain ⟨res, hres, rfl⟩ := Option.map_eq_some_iff.mp hstep
      unfold storePop at hres
      rw [hc, Option.bind_some] at hres
      have hop : w.opOn s (.pop c) = if x.s = s then some .pop else none :=
        opOn_conn hx
      exact Edited.take hs hc hop rfl pop_none hres ho ho'
  cases step_effect hstep with
  | ctor hf hu =>
      have hu' := baseCtor_props hs hf hu ho
      exact hkeep rfl (ho.trans (hu'.symm.trans ho'))
  | connect _ =>
      exact hprops rfl ((objectConnect_grow (hcon _) _).props s) ho'
  | baseFree hf hu => exact Edited.baseFree hs hf hu ho ho'
  | readRestored _ _ _ hr =>
      exact hset rfl (grow_of_restored hr (hcon _)) ho'
  | readThrew _ hr => exact hset rfl (grow_of_restored hr (hcon _)) ho'
  | @write c key v x st hx _ hst =>
      have hop : w.opOn s (.write c key v)
          = if x.s = s then some (.writing key st true) else none := by
        refine (opOn_conn hx).trans ?_
        rw [hst]
        rfl
      have hsame : SameTable (w.writeStore x.z.owner x.z.loc x.o.props key
          st).2.2 (x.o.props.apply (.writing key st true)) := by
        rw [apply_writing]
        exact sameTable_bumpIf _ _ _
      exact Edited.commit hself (ready_eq_some.mp hx).1 hop hsame ho ho'
  | @delete c k x hx _ =>
      have hop : w.opOn s (.delete c k)
          = if x.s = s then some (.delete k) else none := opOn_conn hx
      exact Edited.commit hself (ready_eq_some.mp hx).1 hop
        (sameTable_bumpIf _ _ _) ho ho'
  | @deleteNothing c k x hx _ =>
      have hop : w.opOn s (.delete c k)
          = if x.s = s then some (.delete k) else none := opOn_conn hx
      exact Edited.commit hself (ready_eq_some.mp hx).1 hop (.refl _) ho ho'
  | take hx ht _ _ => exact htake hx (ht.imp And.left And.left)
  | takeNothing hact hx => exact htake hx hact
  | @chunk c size x r hx hr =>
      have hop : w.opOn s (.chunk c size)
          = if x.s = s then some (.chunk size) else none := opOn_conn hx
      exact Edited.commit (restoreAll_grow _ (hcon _) hr)
        (ready_eq_some.mp hx).1 hop (sameTable_bumpIf _ _ _) ho ho'
  | @merge c source overwrite x y es hx hy hes =>
      have hop : w.opOn s (.merge c source overwrite)
          = if x.s = s then some (.merge es overwrite fun _ => true)
            else none := by
        refine (opOn_conn hx).trans ?_
        rw [(ready_eq_some.mp hy).1, Option.bind_some, hes]
        rfl
      have hsame : SameTable (afterMerge x overwrite es).2
          (x.o.props.apply (.merge es overwrite fun _ => true)) := by
        obtain ⟨hh, hf, hl⟩ := sameTable_bumpIf
          (mergeLoop overwrite es (x.o.props.hash, x.z.loc, false)).2.2
          (mergeLoop overwrite es (x.o.props.hash, x.z.loc, false)).2.1
          { x.o.props with hash := (mergeLoop overwrite es
            (x.o.props.hash, x.z.loc, false)).1 }.invalidateBounds
        exact ⟨hh.trans (mergeLoop_hash overwrite es _ _ _), hf, hl⟩
      exact Edited.commit hself (ready_eq_some.mp hx).1 hop hsame ho ho'
  | tohash _ hr _ =>
      exact hprops rfl ((restoreAll_grow _ (hcon _) hr).props s) ho'
  | fullSync _ hu =>
      have hsy := (fullSync_syncs visits_all _ (hcon _) trivial hu).1
      exact hprops rfl (hsy.props (hcon _) s) ho'
  | join _ hu =>
      have hsy := joinSync_syncs visits_all (hcon _) trivial
        (fun _ _ => trivial) hu
      exact hprops rfl (hsy.props (hcon _) s) ho'
  | _ => exact hkeep rfl ho'

-- ============================================================ the bounds

/-- The cached bounds of every store are right. -/
def Bounded (w : World) : Prop :=
  ∀ s o, w.shared.get s = some o → BoundsInv o.props

theorem Edited.bounds {p p' : Store Storage} (h : Edited w s act p p')
    (hp : BoundsInv p) : BoundsInv p' := by
  cases h with
  | kept _ hsame => exact hp.same hsame
  | called _ hsame => exact (apply_boundsInv hp _).same hsame
  | persisted r _ => exact hp.mapVal _

/-- A new ts_obj is built by writes from an empty store. -/
theorem Bounded.baseCtor (hs : Skel w) (h : Bounded w) {a : Addr}
    {scope : Scope} {defaults : List (List Default)}
    (hu : w.baseCtor E t a scope defaults = some w') : Bounded w' := by
  unfold World.baseCtor at hu
  rw [hs.connecting t] at hu
  have hnew : Bounded (w.tsObjectCtor E t a scope) := by
    intro s o ho
    change (w.shared.place _ _).get s = some o at ho
    rw [Heap.get_place] at ho
    split at ho
    · rw [← Option.some.inj ho]
      exact boundsInv_init
    · exact h s o ho
  have hall := writePropertyDefaults_induct (P := Bounded) (c := a) defaults
    (fun {u k v r} _ hu hr => by
      obtain ⟨x, st, hx, -, rfl⟩ := writeLocked_some hr
      intro s' o' ho'
      change (u.commit a x.s _).shared.get s' = some o' at ho'
      obtain ⟨ob, hob, -⟩ := birth_commit ho'
      rcases commit_cases (E := E) (t := t) .refl hx hob ho' with
        ⟨-, -, hp⟩ | ⟨-, hp⟩
      · rw [hp]
        exact (apply_boundsInv (hu x.s x.o (conn_eq_some.mp hx).2.2)
          (.write k st true)).same (sameTable_bumpIf _ _ _)
      · rw [hp]
        exact hu s' ob hob) hnew
  rw [← Option.some.inj hu]
  unfold registerObject
  split
  · exact hall
  · exact hall

/-- Only a construction makes a ts_obj. -/
theorem step_noNewShared (hs : Skel w) (hstep : step E w act = some w')
    (hact : ∀ t, act ≠ .ctor t) : NoNewShared w w' := by
  have hcon := fun t => hs.connecting t
  cases step_effect hstep with
  | ctor hf hu => exact absurd rfl (hact _)
  | @baseFree t a batch u hf hu =>
      have hb : u.births = w.births := by
        obtain ⟨s, hts, hres, o, ho⟩ := hs.freeing hf
        rcases baseFree_cases hts ho hres hu with ⟨-, rfl⟩ | ⟨-, -, rfl⟩
        · rfl
        · rfl
      refine ⟨hb, fun s o' ho' => ?_⟩
      obtain ⟨o, ho, hbirth, -⟩ := baseFree_shared hs hf hu ho'
      exact ⟨o, ho, hbirth⟩
  | connect _ => exact (objectConnect_grow (hcon _) _).noNewShared
  | @readRestored c k access x st v u hx _ _ hr =>
      have hn := (grow_of_restored hr (hcon x.z.owner)).noNewShared
      exact hn
  | @readThrew c k access x st u hx hr =>
      have hn := (grow_of_restored hr (hcon x.z.owner)).noNewShared
      exact hn
  | @write c key v x st _ _ _ =>
      have hn := noNewShared_commit w c x.s
        (w.writeStore x.z.owner x.z.loc x.o.props key st).2
      exact hn
  | @delete c k x _ _ =>
      have hn := noNewShared_commit w c x.s (bumpIf
        (memberIsCacheable x.o.props.hash k) x.z.loc (x.o.props.delete k))
      exact hn
  | deleteNothing _ _ => exact noNewShared_commit w _ _ _
  | @take act c x e p r u _ _ hr _ =>
      have hg := grow_of_restored hr (hcon x.z.owner)
      exact hg.noNewShared.trans (noNewShared_commit u _ _ _)
  | chunk _ hr =>
      exact (restoreAll_grow _ (hcon _) hr).noNewShared.trans
        (noNewShared_commit _ _ _ _)
  | merge _ _ _ => exact noNewShared_commit w _ _ _
  | tohash _ hr _ => exact (restoreAll_grow _ (hcon _) hr).noNewShared
  | fullSync _ hu =>
      have hsy := (fullSync_syncs visits_all _ (hcon _) trivial hu).1
      exact noNewShared_of_props (hsy.extends (hcon _)) (hsy.props (hcon _))
  | join _ hu =>
      have hsy := joinSync_syncs visits_all (hcon _) trivial
        (fun _ _ => trivial) hu
      exact noNewShared_of_props (hsy.extends (hcon _)) (hsy.props (hcon _))
  | _ => exact .refl w

theorem step_bounded (hs : Skel w) (h : Bounded w)
    (hstep : step E w act = some w') : Bounded w' := by
  by_cases hact : ∃ t, act = .ctor t
  · obtain ⟨t, rfl⟩ := hact
    cases step_effect hstep with
    | ctor hf hu =>
        have hb := h.baseCtor hs hu
        exact hb
    | take _ ht _ _ =>
        rcases ht with ⟨hact, -⟩ | ⟨hact, -⟩ <;> cases hact
    | takeNothing hact _ => rcases hact with hact | hact <;> cases hact
  · intro s o' ho'
    have hnew := step_noNewShared hs hstep fun t ht => hact ⟨t, ht⟩
    obtain ⟨o, ho, -⟩ := hnew.2 s o' ho'
    exact (step_edited hs hstep ho ho').bounds (h s o ho)

theorem Reachable.bounded (h : Reachable E w) : Bounded w :=
  (h.induct (P := fun w => Skel w ∧ Bounded w)
    ⟨skel_init, fun _ _ ho => by cases ho⟩
    fun _ _ _ hp hstep => ⟨step_skel hp.1 hstep,
      step_bounded hp.1 hp.2 hstep⟩).2

-- ============================================================ the array

theorem plain_persist (hown : OwnInv w) (ho : w.shared.get s = some o)
    {e : Key × Storage} (he : e ∈ o.props.hash.entries) (r : ThreadId) :
    (w.persistStorage r e.2).plain = e.2.plain := by
  obtain ⟨k, st⟩ := e
  cases st with
  | stringPtr owner p b =>
      have hfind := HashTable.find_eq_some_iff.mpr he
      obtain ⟨hp, -⟩ := (hown owner).strings ((entry_eq ho k).trans hfind)
      unfold persistStorage
      by_cases hr : owner = r
      · simp only [if_pos hr, hp]
        rfl
      · simp only [if_neg hr]
  | _ => rfl

theorem array_persisted (hown : OwnInv w) (ho : w.shared.get s = some o)
    (r : ThreadId) :
    (o.props.hash.mapVal (w.persistStorage r)).toArray.map Storage.plain
      = o.array := by
  rw [HashTable.toArray_mapVal]
  refine OrderedArray.ext ?_ rfl
  show mapVals _ (mapVals _ o.props.hash.entries)
    = mapVals _ o.props.hash.entries
  unfold mapVals
  rw [List.map_map]
  refine List.map_congr_left fun e he => ?_
  exact Prod.ext rfl (plain_persist hown ho he r)

theorem callOn_eq (ho : w.shared.get s = some o) (act : Act) :
    w.callOn s act = (w.opOn s act).map fun op =>
      (op.call.map Storage.plain,
        mapVals Storage.plain (o.props.taken op)) := by
  unfold callOn
  rw [ho]
  rfl

/-- A step makes its own call on the array, or leaves it alone. -/
theorem step_array (hs : Skel w) (hown : OwnInv w) (hb : Bounded w)
    (hstep : step E w act = some w') (ho : w.shared.get s = some o)
    (ho' : w'.shared.get s = some o') :
    OrderedArray.Runs o.array (w.callOn s act).toList o'.array := by
  have hedit := step_edited hs hstep ho ho'
  unfold TsObj.array
  generalize o'.props = p' at hedit
  cases hedit with
  | kept hop h =>
      rw [callOn_eq ho, hop, h.hash]
      rfl
  | @called op _ hop h =>
      rw [callOn_eq ho, hop, h.hash]
      exact ⟨_, (apply_step (hb s o ho) op).map Storage.plain, rfl⟩
  | persisted r hop =>
      rw [callOn_eq ho, hop]
      exact array_persisted hown ho r

/-- A ts_obj with an old serial number was there before. -/
theorem step_births (hs : Skel w) (hstep : step E w act = some w') :
    w.births ≤ w'.births ∧ ∀ s o', w'.shared.get s = some o' →
      o'.birth < w.births →
        ∃ o, w.shared.get s = some o ∧ o.birth = o'.birth := by
  by_cases hact : ∃ t, act = .ctor t
  · obtain ⟨t, rfl⟩ := hact
    cases step_effect hstep with
    | take _ ht _ _ => rcases ht with ⟨hact, -⟩ | ⟨hact, -⟩ <;> cases hact
    | takeNothing hact _ => rcases hact with hact | hact <;> cases hact
    | @ctor t a scope defaults u hf hu =>
        unfold World.baseCtor at hu
        rw [hs.connecting t] at hu
        have hall := (writePropertyDefaults_induct (c := a)
          (P := NoNewShared (w.tsObjectCtor E t a scope)) defaults
          (fun {v k x r} _ hv hr => by
            obtain ⟨x, st, -, -, rfl⟩ := writeLocked_some hr
            exact hv.trans (noNewShared_commit v a x.s _)) (.refl _)).trans
          (noNewShared_registerObject _ t a)
        rw [Option.some.inj hu] at hall
        refine ⟨?_, fun s o' ho' hold => ?_⟩
        · show w.births ≤ u.births
          rw [hall.1]
          exact Nat.le_succ _
        · obtain ⟨o, ho, hb⟩ := hall.2 s o' ho'
          change (w.shared.place _ _).get s = some o at ho
          rw [Heap.get_place] at ho
          split at ho
          · rw [← hb, ← Option.some.inj ho] at hold
            exact absurd hold (Nat.lt_irrefl _)
          · exact ⟨o, ho, hb⟩
  · have hnew := step_noNewShared hs hstep fun t ht => hact ⟨t, ht⟩
    exact ⟨Nat.le_of_eq hnew.1.symm, fun s o' ho' _ => hnew.2 s o' ho'⟩

theorem run_births (hw : Reachable E w) (hrun : run E w acts = some w')
    (ho' : w'.shared.get s = some o') (hold : o'.birth < w.births) :
    ∃ o, w.shared.get s = some o ∧ o.birth = o'.birth := by
  induction acts generalizing w with
  | nil =>
      injection hrun with hrun
      rw [hrun]
      exact ⟨o', ho', rfl⟩
  | cons act acts ih =>
      obtain ⟨u, hu, hrun⟩ := run_cons.mp hrun
      obtain ⟨hle, hback⟩ := step_births hw.skel hu
      obtain ⟨ob, hob, hb⟩ := ih (hw.after hu) hrun
        (Nat.lt_of_lt_of_le hold hle)
      obtain ⟨o, ho, hb'⟩ := hback s ob hob (hb ▸ hold)
      exact ⟨o, ho, hb'.trans hb⟩

theorem run_history (hw : Reachable E w) (hrun : run E w acts = some w')
    (ho : w.shared.get s = some o) (ho' : w'.shared.get s = some o')
    (hbirth : o'.birth = o.birth) :
    OrderedArray.Runs o.array (history E s w acts) o'.array := by
  induction acts generalizing w o with
  | nil =>
      injection hrun with hrun
      rw [hrun, ho'] at ho
      rw [Option.some.inj ho]
      rfl
  | cons act acts ih =>
      obtain ⟨u, hu, hrun⟩ := run_cons.mp hrun
      have hlt : o'.birth < u.births := by
        rw [hbirth]
        exact Nat.lt_of_lt_of_le (hw.numbered s o ho).1
          (step_births hw.skel hu).1
      obtain ⟨ob, hob, hb⟩ := run_births (hw.after hu) hrun ho' hlt
      rw [history_cons hu]
      exact (step_array hw.skel hw.own hw.bounded hu ho hob).append
        (ih (hw.after hu) hrun hob hb.symm)

/-- Any number of producers and consumers: while threads only append to
a ThreadSafeArray and take from it, every value comes out once or is
still there, and without pops in the order of the appends. -/
theorem run_transfers (hw : Reachable E w) (hrun : run E w acts = some w')
    (ho : w.shared.get s = some o) (ho' : w'.shared.get s = some o')
    (hbirth : o'.birth = o.birth)
    (honly : ∀ x ∈ history E s w acts, x.1.transfers = true)
    (hroom : max o.props.hash.nextFree 0
      + (OrderedArray.pushed (history E s w acts)).length ≤ longMax) :
    (o.array.values ++ OrderedArray.pushed (history E s w acts)).Perm
        (OrderedArray.taken (history E s w acts) ++ o'.array.values)
      ∧ ((∀ x ∈ history E s w acts, x.1 ≠ .pop) →
        o.array.values ++ OrderedArray.pushed (history E s w acts)
          = OrderedArray.taken (history E s w acts) ++ o'.array.values) := by
  have hruns := run_history hw hrun ho ho' hbirth
  have hfree := tableInvariant_freeAbove.reachable hw s o ho
  have hr := (hfree.room hroom).mono (b := o.array) (Nat.le_refl _) rfl
    (by rw [TsObj.array, OrderedArray.keys_map]; exact List.Subset.refl _)
  exact ⟨hruns.conserves honly hr, fun hpop =>
    hruns.inOrder (fun x hx => ⟨honly x hx, hpop x hx⟩) hr⟩

/-- Thread 1 makes a ThreadSafeArray, to which thread 2 connects. -/
def shareEmpty : List Act :=
  [.alloc 1 [] .threaded [], .ctor 1, .connect 2 1]

/-- Thread 1 appends twice, and thread 2 takes the first value between
the two. -/
def passOne : List Act :=
  [.write 1 none (.long 7), .finish 1, .shift 2, .write 1 none (.long 8),
    .finish 1]

theorem run_transfers_passOne :
    ∃ w w' o o', run (demoEngine .bump) init shareEmpty = some w
      ∧ run (demoEngine .bump) w passOne = some w'
      ∧ w.shared.get 1 = some o ∧ w'.shared.get 1 = some o'
      ∧ o.array.values ++ [.long 7, .long 8]
        = [.long 7] ++ o'.array.values := by
  have hview : (run (demoEngine .bump) init shareEmpty).map (fun w =>
      ((w.shared.get 1).map fun o => (o.birth, o.props.hash.nextFree),
        (run (demoEngine .bump) w passOne).map fun w' =>
          (w'.shared.get 1).map TsObj.birth))
      = some (some (0, longMin), some (some 0)) := by
    decide
  have hhist : (run (demoEngine .bump) init shareEmpty).map
      (fun w => history (demoEngine .bump) 1 w passOne)
      = some [(.push (.long 7), []), (.shift, [(.long 0, .long 7)]),
          (.push (.long 8), [])] := by
    decide
  obtain ⟨w, hw, hv⟩ := Option.map_eq_some_iff.mp hview
  rw [hw] at hhist
  have hhist : history _ 1 w _ = _ := Option.some.inj hhist
  obtain ⟨ho, hv⟩ := Prod.mk.inj hv
  obtain ⟨o, ho, hob⟩ := Option.map_eq_some_iff.mp ho
  obtain ⟨w', hw', hv⟩ := Option.map_eq_some_iff.mp hv
  obtain ⟨o', ho', hob'⟩ := Option.map_eq_some_iff.mp hv
  obtain ⟨hbirth, hfree⟩ := Prod.mk.inj hob
  have honly : ∀ x ∈ history (demoEngine .bump) 1 w passOne,
      x.1.transfers = true := by
    rw [hhist]
    decide
  have hroom : max o.props.hash.nextFree 0 + (OrderedArray.pushed
      (history (demoEngine .bump) 1 w passOne)).length ≤ longMax := by
    rw [hhist, hfree]
    decide
  have hpop : ∀ x ∈ history (demoEngine .bump) 1 w passOne,
      x.1 ≠ .pop := by
    rw [hhist]
    decide
  have hpass := (run_transfers ⟨shareEmpty, hw⟩ hw' ho ho'
    (hob'.trans hbirth.symm) honly hroom).2 hpop
  rw [hhist] at hpass
  exact ⟨w, w', o, o', hw, hw', ho, ho', hpass⟩

end World

end PmmpThread.Model
