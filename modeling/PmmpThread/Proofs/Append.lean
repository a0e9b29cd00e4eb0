/-
Appending to a store: `$a[] = v` either adds one entry at the end or
replaces the entry under `PHP_INT_MAX`.

The key of an append is `nNextFreeElement`, computed apart from the
insertion, which is an update. The counter is above every integer key
the table holds until it saturates (`FreeAbove`), so the key is new
unless `PHP_INT_MAX` is there. That holds of every table of a reachable
world because every store is built by the engine's table operations
alone (`Tables`).
-/
import PmmpThread.Proofs.Bounds
import PmmpThread.Proofs.Steps

namespace PmmpThread.Model.World

open Zend

variable {E : Engine} {t : ThreadId} {w w' : World}
  {P : HashTable Storage → Prop}

-- ======================================================== built tables

/-- A property of a new table that inserting, deleting and rewriting
keep. -/
structure TableInvariant (P : HashTable Storage → Prop) : Prop where
  init : P (.init 8)
  update : ∀ {h}, P h → ∀ k v, P (h.update true k v)
  filter : ∀ {h}, P h → ∀ p, P (h.filter p)
  mapVal : ∀ {h}, P h → ∀ f, P (h.mapVal f)

/-- Every shared table has the property. -/
def Tables (P : HashTable Storage → Prop) (w : World) : Prop :=
  ∀ s o, w.shared.get s = some o → P o.props.hash

/-- Only the stores matter, -/
theorem Tables.of_props (h : Tables P w)
    (hp : ∀ s, (w'.shared.get s).map TsObj.props
      = (w.shared.get s).map TsObj.props) : Tables P w' := by
  intro s o' ho'
  have hs := hp s
  rw [ho', Option.map_some] at hs
  obtain ⟨o, ho, heq⟩ := Option.map_eq_some_iff.mp hs.symm
  rw [← heq]
  exact h s o ho

/-- and only those of the heap of `ts_obj`s. -/
theorem Tables.of_shared (h : Tables P w) (hw : w'.shared = w.shared) :
    Tables P w' := by
  unfold Tables
  rw [hw]
  exact h

/-- An operation under the lock writes back one table. -/
theorem Tables.commit (h : Tables P w) {c : Addr} {s : TsAddr}
    {r : Local × Store Storage} (hr : P r.2.hash) :
    Tables P (w.commit c s r) := by
  intro s' o' ho'
  rw [shared_commit] at ho'
  split at ho'
  case isTrue =>
    obtain ⟨o, -, rfl⟩ := Option.map_eq_some_iff.mp ho'
    exact hr
  case isFalse => exact h s' o' ho'

theorem Tables.conn (h : Tables P w) {c : Addr} {x : Conn}
    (hx : w.conn c = some x) : P x.o.props.hash :=
  h x.s x.o (conn_eq_some.mp hx).2.2

namespace TableInvariant

variable (hP : TableInvariant P)

include hP

theorem write {s : Store Storage} (h : P s.hash) (key : Option Key)
    (st : Storage) : P (s.write key st true).hash := by
  rw [Store.write_hash]
  exact hP.update h _ _

/-- What the rounds of a chunk leave is what was there without the taken
keys. -/
theorem chunkLoop (n : Nat) : ∀ {s : Store Storage} (pos : Nat), P s.hash →
    P (Store.chunkLoop n pos s).2.hash := by
  induction n with
  | zero => exact fun _ h => h
  | succ n ih =>
      intro s pos h
      unfold Store.chunkLoop
      split
      case h_1 e _ => exact ih _ (hP.filter h fun k' _ => k' != e.1)
      case h_2 => exact h

/-- The rounds of a merge between stores insert. -/
theorem mergeLoop (overwrite : Bool) (es : List (Key × Storage)) :
    ∀ {r : HashTable Storage × Local × Bool}, P r.1 →
      P (World.mergeLoop overwrite es r).1 := by
  induction es with
  | nil => exact fun h => h
  | cons e es ih =>
      intro r h
      obtain ⟨t, l, b⟩ := r
      unfold World.mergeLoop
      split
      · exact ih h
      · exact ih (hP.update h _ _)

/-- A construction makes a new table and writes the defaults into it. -/
theorem baseCtor (hs : Skel w) (h : Tables P w) {a : Addr} {scope : Scope}
    {defaults : List (List Default)}
    (hu : w.baseCtor E t a scope defaults = some w') : Tables P w' := by
  unfold World.baseCtor at hu
  rw [hs.connecting t] at hu
  have hnew : Tables P (w.tsObjectCtor E t a scope) := by
    intro s o ho
    change (w.shared.place _ _).get s = some o at ho
    rw [Heap.get_place] at ho
    split at ho
    · rw [← Option.some.inj ho]
      exact hP.init
    · exact h s o ho
  have hall := writePropertyDefaults_induct (P := Tables P) (c := a) defaults
    (fun {u k v r} _ hu hr => by
      obtain ⟨x, st, hx, -, rfl⟩ := writeLocked_some hr
      refine Tables.commit (c := a) hu ?_
      unfold writeStore
      rw [bumpIf_hash]
      exact hP.write (hu.conn hx) _ st) hnew
  rw [← Option.some.inj hu]
  unfold registerObject
  split
  · exact hall
  · exact hall

/-- A free drops a table, or persists the freed thread's strings in it. -/
theorem baseFree (hs : Skel w) (h : Tables P w) {a : Addr}
    {batch : List Addr} (hf : w.frame t = .freeing (a :: batch))
    (hu : w.baseFree t a = some w') : Tables P w' := by
  obtain ⟨s, htsOf, hres, o, ho⟩ := hs.freeing hf
  rcases baseFree_cases htsOf ho hres hu with ⟨-, rfl⟩ | ⟨-, -, rfl⟩
  · intro s' o' ho'
    change (w.shared.free s).get s' = some o' at ho'
    rw [Heap.get_free] at ho'
    split at ho'
    · cases ho'
    · exact h s' o' ho'
  · intro s' o' ho'
    change (w.persisted t s o).get s' = some o' at ho'
    rw [get_persisted ho] at ho'
    split at ho'
    · rw [← Option.some.inj ho']
      exact hP.mapVal (h s o ho) _
    · exact h s' o' ho'

/-- One lemma per step: each is made of the four operations of a
`TableInvariant`. -/
theorem step {act : Act} (hs : Skel w) (h : Tables P w)
    (hstep : step E w act = some w') : Tables P w' := by
  have hcon := fun t => hs.connecting t
  have hgrow : ∀ {a : ThreadId} {v u : World}, Tables P v → Grow E a v u →
      Tables P u := fun hv hg => hv.of_props hg.props
  have hread : ∀ {c x st r u},
      (w.setLocal c (w.readSync x)).restoreZval E x.z.owner st = (r, u) →
      Tables P u := by
    intro c x st r u hr
    have hg := grow_of_restored hr (hcon x.z.owner)
    have hset : Tables P (w.setLocal c (w.readSync x)) := h.of_shared rfl
    exact hgrow hset hg
  cases step_effect hstep with
  | ctor hf hu => exact (hP.baseCtor hs h hu).of_shared rfl
  | connect _ => exact hgrow h (objectConnect_grow (hcon _) _)
  | baseFree hf hu => exact (hP.baseFree hs h hf hu).of_shared rfl
  | readRestored _ _ _ hr => exact (hread hr).of_shared rfl
  | readThrew _ hr => exact hread hr
  | @write c key v x st hx _ _ =>
      refine Tables.of_shared (w := w.commit c x.s _) (Tables.commit h ?_) rfl
      unfold writeStore
      rw [bumpIf_hash]
      exact hP.write (h.conn (ready_eq_some.mp hx).1) _ _
  | @delete c k x hx _ =>
      refine Tables.of_shared (w := w.commit c x.s _) (h.commit ?_) rfl
      rw [bumpIf_hash]
      exact hP.filter (h.conn (ready_eq_some.mp hx).1) fun k' _ => k' != k
  | @deleteNothing c k x hx _ =>
      exact h.commit (hP.filter (h.conn (ready_eq_some.mp hx).1)
        fun k' _ => k' != k)
  | @take _ c x e p r u hx ht hr _ =>
      have hg := grow_of_restored hr (hcon x.z.owner)
      refine (hgrow h hg).commit ?_
      unfold afterTake
      rw [bumpIf_hash, (Store.take_spec ht.takes).2.1]
      exact hP.filter (h.conn (ready_eq_some.mp hx).1) _
  | @chunk c size x r hx hr =>
      refine (hgrow h (restoreAll_grow _ (hcon _) hr)).commit ?_
      unfold afterChunk
      rw [bumpIf_hash]
      exact hP.chunkLoop _ _ (h.conn (ready_eq_some.mp hx).1)
  | @merge c source overwrite x y es hx _ _ =>
      refine h.commit ?_
      unfold afterMerge
      rw [bumpIf_hash]
      exact hP.mergeLoop overwrite es (h.conn (ready_eq_some.mp hx).1)
  | tohash hx hr _ =>
      exact (hgrow h (restoreAll_grow _ (hcon _) hr)).of_shared rfl
  | fullSync hx hu =>
      have hsy := (fullSync_syncs visits_all _ (hcon _) trivial hu).1
      exact h.of_props (hsy.props (hcon _))
  | join hx hu =>
      have hsy := joinSync_syncs visits_all (hcon _) trivial
        (fun _ _ => trivial) hu
      exact h.of_props (hsy.props (hcon _))
  | _ => exact h

theorem reachable (h : Reachable E w) : Tables P w := by
  have hall : Skel w ∧ Tables P w :=
    h.induct (P := fun w => Skel w ∧ Tables P w)
      ⟨skel_init, fun _ _ ho => (nomatch ho)⟩ fun _ _ _ hi hstep =>
        ⟨step_skel hi.1 hstep, hP.step hi.1 hi.2 hstep⟩
  exact hall.2

end TableInvariant

/-- The instance for appends: the next free key is above all keys. -/
theorem tableInvariant_freeAbove : TableInvariant HashTable.FreeAbove where
  init := HashTable.freeAbove_init 8
  update h k v := h.update true k v
  filter h p := h.filter p
  mapVal h f := h.mapVal f

-- ========================================================== an append

/-- A keyless `pmmpthread_store_write` of `v` through `c` fails, or adds
one entry at the end of the table, under an integer key that is new. -/
def AppendsOnly (w : World) (c : Addr) (x : Conn) (v : Zval) : Prop :=
  w.writeLocked c none v = none
    ∨ ∃ n st w' o', w.writeLocked c none v = some (.long n, w')
      ∧ .long n ∉ x.o.props.hash.entries.map Prod.fst
      ∧ w'.shared.get x.s = some o'
      ∧ o'.props.hash.entries = x.o.props.hash.entries ++ [(.long n, st)]

/-- The table an append leaves. -/
theorem append_hash {c : Addr} {x : Conn} (hx : w.conn c = some x)
    {v : Zval} {st : Storage} (hst : w.saveZval x.z.owner v = some st) :
    ∃ w' o', w.writeLocked c none v = some (x.o.props.hash.nextKey, w')
      ∧ w'.shared.get x.s = some o'
      ∧ o'.props.hash
        = x.o.props.hash.update true x.o.props.hash.nextKey st := by
  obtain ⟨-, -, ho⟩ := conn_eq_some.mp hx
  refine ⟨_, _, by rw [writeLocked_eq hx, hst]; rfl, by
    rw [shared_commit, if_pos rfl, ho]
    rfl, ?_⟩
  unfold writeStore
  change (bumpIf _ _ _).2.hash = _
  rw [bumpIf_hash, Store.write_hash]
  rfl

/-- Appending never overwrites, in every reachable world and through
every connection, exactly if the value cannot be stored or the key
`PHP_INT_MAX` is not in the table. -/
theorem append_never_overwrites_iff (E : Engine) (w : World)
    (h : Reachable E w) (c : Addr) (x : Conn) (hx : w.conn c = some x)
    (v : Zval) :
    AppendsOnly w c x v ↔ w.saveZval x.z.owner v = none
      ∨ .long longMax ∉ x.o.props.hash.entries.map Prod.fst := by
  have hfree := (tableInvariant_freeAbove.reachable h).conn hx
  cases hst : w.saveZval x.z.owner v with
  | none =>
      refine ⟨fun _ => Or.inl rfl, fun _ => Or.inl ?_⟩
      rw [writeLocked_eq hx, hst]
      rfl
  | some st =>
      obtain ⟨w', o', hw, ho', hhash⟩ := append_hash hx hst
      rw [← HashTable.nextKey_mem_iff hfree]
      constructor
      · rintro (hnone | ⟨n, st', u, o'', hu, hn, -⟩)
        · rw [hw] at hnone
          cases hnone
        · rw [hw] at hu
          obtain ⟨hkey, -⟩ := Prod.mk.inj (Option.some.inj hu)
          rw [hkey]
          exact Or.inr hn
      · rintro (hnone | hnew)
        · cases hnone
        · refine Or.inr ⟨_, st, w', o', hw, hnew, ho', ?_⟩
          rw [hhash]
          exact HashTable.entries_update_of_notMem hnew

/-- `$a[n] = 1;` -/
def writeAt (n : Int) : List Act :=
  [.alloc 1 [] .threaded [], .ctor 1, .write 1 (some (.long n)) (.long 1),
    .finish 1]

/-- `$a[] = 2;` after `$a[-3] = 1;` -/
theorem append_never_overwrites_iff_negative :
    ∃ w x, run (demoEngine .bump) init (writeAt (-3)) = some w
      ∧ w.conn 1 = some x
      ∧ x.o.props.hash.entries = [(.long (-3), .long 1)]
      ∧ AppendsOnly w 1 x (.long 2) := by
  have hview : (run (demoEngine .bump) init (writeAt (-3))).map (fun w =>
      (w.conn 1).map fun x => x.o.props.hash.entries)
      = some (some [(.long (-3), .long 1)]) := by
    decide
  obtain ⟨w, hw, hv⟩ := Option.map_eq_some_iff.mp hview
  obtain ⟨x, hx, hv⟩ := Option.map_eq_some_iff.mp hv
  refine ⟨w, x, hw, hx, hv, (append_never_overwrites_iff (demoEngine .bump) w
    ⟨writeAt (-3), hw⟩ 1 x hx (.long 2)).mpr (Or.inr ?_)⟩
  rw [hv]
  decide

/-- `$a[] = 2;` after `$a[PHP_INT_MAX] = 1;` replaces the entry. -/
theorem append_overwrites_intMax :
    ∃ w x, run (demoEngine .bump) init (writeAt longMax) = some w
      ∧ w.conn 1 = some x ∧ x.s = 1
      ∧ x.o.props.hash.entries = [(.long longMax, .long 1)]
      ∧ (w.writeLocked 1 none (.long 2)).map (fun r => (r.1,
          (r.2.shared.get 1).map fun o => o.props.hash.entries))
        = some (.long longMax, some [(.long longMax, .long 2)])
      ∧ ¬ AppendsOnly w 1 x (.long 2) := by
  have hbefore : (run (demoEngine .bump) init (writeAt longMax)).map (fun w =>
      (w.conn 1).map fun x => (x.s, x.o.props.hash.entries))
      = some (some (1, [(.long longMax, .long 1)])) := by
    decide
  have hafter : ((run (demoEngine .bump) init (writeAt longMax)).bind fun w =>
      w.writeLocked 1 none (.long 2)).map (fun r => (r.1,
        (r.2.shared.get 1).map fun o => o.props.hash.entries))
      = some (.long longMax, some [(.long longMax, .long 2)]) := by
    decide
  obtain ⟨w, hw, hv⟩ := Option.map_eq_some_iff.mp hbefore
  obtain ⟨x, hx, hv⟩ := Option.map_eq_some_iff.mp hv
  obtain ⟨hs, hbefore⟩ := Prod.mk.inj hv
  rw [hw, Option.bind_some] at hafter
  refine ⟨w, x, hw, hx, hs, hbefore, hafter, ?_⟩
  rintro (hnone | ⟨n, st, u, o', hu, hn, -⟩)
  · rw [hnone] at hafter
    cases hafter
  · rw [hu, Option.map_some] at hafter
    obtain ⟨hkey, -⟩ := Prod.mk.inj (Option.some.inj hafter)
    rw [show Key.long n = .long longMax from hkey, hbefore] at hn
    exact hn (List.mem_singleton.mpr rfl)

end PmmpThread.Model.World
