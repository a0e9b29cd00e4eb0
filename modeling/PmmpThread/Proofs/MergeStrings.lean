/-
The two paths of `pmmpthread_store_merge` and the names of enum cases.

From another ThreadSafeArray the names are taken over as pointers, and
what an entry of the destination had is freed. If it had the same names,
from an earlier merge or because both are one array, the entry is left
with names that are freed. From an array the names are written and each
entry gets its own.

# Only two tables

What a merge does to its destination does not depend on other tables
(`State.only`). So it may free names that a third table has; with the two
tables alone that cannot be, and the invariant of the runs applies.
-/
import PmmpThread.Proofs.MergePaths
import PmmpThread.Proofs.StringRuns

namespace PmmpThread.Model.SharedStrings

open Zend Heap

variable {V : Type} {A : Allocator} {h h' : Memory} {s s' : State V}
  {a dst src : TsAddr} {k : Key} {shared : Prop} {overwrite : Bool}

-- ============================================================== views

theorem contents_of_find_some {b : Bucket V}
    (hb : (s.tables a).find k = some b) :
    s.contents a k = restoreZval s.memory b.value := by
  unfold State.contents
  rw [hb, Option.bind_some]

/-- A view is the keys in order, and the contents. -/
theorem State.view_eq (s : State V) (a : TsAddr) :
    s.view a = (s.keys a).map fun k => (k, s.contents a k) := by
  unfold State.view State.keys mapVals
  rw [List.map_map]
  refine List.map_congr_left fun e he => ?_
  rw [Function.comp_apply,
    contents_of_find_some (HashTable.find_eq_some_iff.mpr he)]

@[simp] theorem State.keys_view (s : State V) (a : TsAddr) :
    (s.view a).map Prod.fst = s.keys a :=
  keys_mapVals _ _

theorem Good.contents_isSome (hs : Good shared s) (hk : k ∈ s.keys a) :
    ∃ c, s.contents a k = some c := by
  cases hb : (s.tables a).find k with
  | none => exact absurd hk (HashTable.find_eq_none_iff.mp hb)
  | some b =>
      obtain ⟨c, -, hc⟩ := hs.contents_of_find hb
      exact ⟨c, hc⟩

/-- Every entry can be read. -/
theorem Good.view_isSome (hs : Good shared s) {e : Key × Option (Content V)}
    (he : e ∈ s.view a) : e.2.isSome = true := by
  rw [State.view_eq] at he
  obtain ⟨k, hk, rfl⟩ := List.mem_map.mp he
  obtain ⟨c, hc⟩ := hs.contents_isSome hk
  exact Option.isSome_iff_exists.mpr ⟨c, hc⟩

/-- An entry that is updated, as it is read. -/
theorem Changed.view {c : Content V} {b : Bucket V}
    (hc : Changed shared s s' a k (some c))
    (ht : s'.tables a = (s.tables a).update true k b) :
    s'.view a = upsert (s.view a) k (some c) := by
  have hcontents : ∀ k', s'.contents a k'
      = if a = a ∧ k' = k then some c else s.contents a k' := fun k' => by
    rw [hc.contents]
    rfl
  have hfind : (s'.tables a).find k = some b := by
    rw [ht, HashTable.find_update_self]
  have hvalue : restoreZval s'.memory b.value = some c := by
    rw [← contents_of_find_some hfind, hcontents, if_pos ⟨rfl, rfl⟩]
  unfold State.view
  rw [ht, HashTable.entries_update, mapVals_upsert, hvalue]
  refine upsert_congr (fun e he hn => ?_) (some c)
  have hold := HashTable.find_eq_some_iff.mpr he
  have hnew := (hc.others fun h => hn h.2).trans hold
  rw [← contents_of_find_some hnew, ← contents_of_find_some hold, hcontents,
    if_neg fun h => hn h.2]

/-- An update changes the table at one key. -/
theorem updateSharedProperty_table {t : HashTable (Bucket V)} {ka : KeyArg}
    {v : Saved V} {q : Memory × HashTable (Bucket V)}
    (hq : updateSharedProperty A h t ka v = some q) :
    ∃ kp, q.2 = t.update true ka.key ⟨kp, v⟩ := by
  unfold updateSharedProperty at hq
  split at hq
  case h_1 =>
    obtain ⟨_, -, rfl⟩ := Option.map_eq_some_iff.mp hq
    exact ⟨_, rfl⟩
  case h_2 =>
    obtain rfl := Option.some.inj hq
    exact ⟨_, rfl⟩

theorem setTable_tables (s : State V) (a : TsAddr) (h : Memory)
    (t : HashTable (Bucket V)) : (s.setTable a h t).tables a = t :=
  Function.update_self ..

-- ========================================================= the rounds

/-- A key that is there and is not to be overwritten. -/
theorem skips_iff : (!overwrite && (s.tables dst).contains k) = true
    ↔ overwrite = false ∧ k ∈ (s.view dst).map Prod.fst := by
  rw [Bool.and_eq_true, Bool.not_eq_true', State.keys_view]
  exact and_congr_right fun _ => HashTable.contains_iff

/-- What a round over a ThreadSafeArray does, where it does something. -/
theorem mergeEntry_eq {b : Bucket V} (hb : (s.tables src).find k = some b)
    (hskip : ¬ (!overwrite && (s.tables dst).contains k) = true)
    (hstep : s.mergeEntry A dst src overwrite k = some s') :
    ∃ ka r q, bucketKey s.memory k b = some ka
      ∧ hardCopyStorage A s.memory b.value = some r
      ∧ updateSharedProperty A r.2 (s.tables dst) ka r.1 = some q
      ∧ s' = s.setTable dst q.1 q.2 := by
  unfold State.mergeEntry at hstep
  rw [hb] at hstep
  obtain ⟨ka, hka, h⟩ :=
    Option.bind_eq_some_iff.mp ((if_neg hskip).symm.trans hstep)
  obtain ⟨r, hr, h⟩ := Option.bind_eq_some_iff.mp h
  obtain ⟨q, hq, rfl⟩ := Option.map_eq_some_iff.mp h
  exact ⟨ka, r, q, hka, hr, hq, rfl⟩

/-- A round over a ThreadSafeArray is one step of merging the values, -/
theorem Good.mergeEntry_view (hs : Good shared s)
    (hshare : s.Shareable shared dst src overwrite k)
    (hk : k ∈ s.keys src) :
    ∃ s' c, s.mergeEntry A dst src overwrite k = some s'
      ∧ Changed shared s s' dst k c
      ∧ s'.view dst
        = mergeStep overwrite (s.view dst) (k, s.contents src k) := by
  obtain ⟨s', hstep, hc⟩ := hs.mergeEntry (A := A) hshare
  refine ⟨s', _, hstep, hc, ?_⟩
  obtain ⟨b, hb⟩ : ∃ b, (s.tables src).find k = some b :=
    Option.ne_none_iff_exists'.mp fun hnone =>
      HashTable.find_eq_none_iff.mp hnone hk
  unfold mergeStep
  by_cases hskip : (!overwrite && (s.tables dst).contains k) = true
  · rw [if_pos (skips_iff.mp hskip)]
    unfold State.mergeEntry at hstep
    rw [hb] at hstep
    rw [Option.some.inj ((if_pos hskip).symm.trans hstep)]
  · rw [if_neg fun h => hskip (skips_iff.mpr h)]
    obtain ⟨c, hcontents⟩ := hs.contents_isSome hk
    obtain ⟨ka, r, q, hka, -, hq, rfl⟩ := mergeEntry_eq hb hskip hstep
    obtain ⟨ka', hka', rfl, -⟩ := bucketKey_valid (hs.key hb)
    obtain rfl := Option.some.inj (hka.symm.trans hka')
    obtain ⟨kp, ht⟩ := updateSharedProperty_table hq
    have hmerged : s.contents.merged dst src overwrite ka.key = some c := by
      unfold Contents.merged
      rw [hcontents, if_pos]
      · rfl
      · refine Classical.or_iff_not_imp_left.mpr fun hover => ?_
        refine contents_of_find_none (HashTable.find_eq_none_iff.mpr
          fun hmem => hskip ?_)
        rw [Bool.eq_false_iff.mpr hover, HashTable.contains_iff.mpr hmem]
        rfl
    rw [hmerged] at hc
    rw [hcontents]
    exact hc.view ((setTable_tables ..).trans ht)

/-- A caller's strings stay valid as long as permanent ones stay. -/
theorem KeyArg.Valid.mono {ka : KeyArg} (hka : ka.Valid h)
    (hperm : ∀ {p b}, h.get p = some ⟨b, true⟩ → h'.get p = some ⟨b, true⟩) :
    ka.Valid h' := by
  cases ka with
  | long n => exact trivial
  | str str => exact fun p hp => hperm (hka p hp)

theorem Written.Valid.mono {v : Written V} (hv : v.Valid h)
    (hperm : ∀ {p b}, h.get p = some ⟨b, true⟩ → h'.get p = some ⟨b, true⟩) :
    v.Valid h' := by
  cases v with
  | plain v => exact trivial
  | string owner str => exact fun p hp => hperm (hv p hp)
  | enumCase cls member =>
      exact ⟨fun p hp => hperm (hv.1 p hp), fun p hp => hperm (hv.2 p hp)⟩

/-- An element of an array as it is to be read. -/
def element (e : KeyArg × Written V) : Key × Option (Content V) :=
  (e.1.key, some e.2.content)

/-- and so is a round over an array. -/
theorem Good.mergeElement_view (hs : Good shared s)
    {e : KeyArg × Written V} (hsole : s.Sole dst e.1.key)
    (hk : e.1.Valid s.memory) (hv : e.2.Valid s.memory) :
    ∃ s' c, s.mergeElement A dst overwrite e = some s'
      ∧ Changed shared s s' dst e.1.key c
      ∧ s'.view dst = mergeStep overwrite (s.view dst) (element e) := by
  unfold State.mergeElement mergeStep element
  by_cases hskip : (!overwrite && (s.tables dst).contains e.1.key) = true
  · rw [if_pos hskip, if_pos (skips_iff.mp hskip)]
    exact ⟨s, _, rfl, .refl hs rfl, rfl⟩
  · rw [if_neg hskip, if_neg fun h => hskip (skips_iff.mpr h)]
    obtain ⟨s', hstep, hc⟩ := hs.write (A := A) hsole hk hv
    refine ⟨s', _, hstep, hc, ?_⟩
    obtain ⟨q, hq, rfl⟩ := Option.map_eq_some_iff.mp hstep
    obtain ⟨kp, ht⟩ := updateSharedProperty_table hq
    exact hc.view ((setTable_tables ..).trans ht)

/-- A loop over different keys, each round of which merges an entry. -/
theorem loop_views {ι : Type} {f : State V → ι → Option (State V)}
    (e : ι → Key × Option (Content V)) (is : List ι)
    (hround : ∀ i ∈ is, ∀ u, Agrees shared s u (e i).1 →
      ∃ u' c, f u i = some u' ∧ Changed shared u u' a (e i).1 c
        ∧ u'.view a = mergeStep overwrite (u.view a) (e i)) :
    ∀ u, (is.map fun i => (e i).1).Nodup → Good shared u →
      (∀ i ∈ is, Agrees shared s u (e i).1) →
      ∃ u', is.foldlM f u = some u' ∧ Good shared u'
        ∧ u'.view a = mergeInto overwrite (u.view a) (is.map e) := by
  induction is with
  | nil => exact fun u _ hu _ => ⟨u, rfl, hu, rfl⟩
  | cons i is ih =>
      intro u hnd _ hagree
      rw [List.map_cons] at hnd
      obtain ⟨hnot, hnd⟩ := List.nodup_cons.mp hnd
      obtain ⟨u₁, c, hf, hc, hview⟩ :=
        hround i List.mem_cons_self u (hagree i List.mem_cons_self)
      obtain ⟨u', hrun, hgood, hviews⟩ := ih
        (fun j hj => hround j (List.mem_cons_of_mem _ hj)) u₁ hnd hc.good
        fun j hj => (hagree j (List.mem_cons_of_mem _ hj)).changed hc
          fun heq => hnot (heq ▸ List.mem_map_of_mem hj)
      refine ⟨u', foldlM_cons_iff.mpr ⟨u₁, hf, hrun⟩, hgood, ?_⟩
      rw [hviews, hview]
      rfl

-- ==================================================== only some tables

/-- The state without the other tables. -/
def State.only (s : State V) (as : List TsAddr) : State V :=
  { s with tables := fun a => if a ∈ as then s.tables a else .init 8 }

theorem only_tables {as : List TsAddr} (ha : a ∈ as) :
    (s.only as).tables a = s.tables a :=
  if_pos ha

theorem only_view {as : List TsAddr} (ha : a ∈ as) :
    (s.only as).view a = s.view a := by
  unfold State.view
  rw [only_tables ha]
  rfl

/-- What is found is in a table that was left. -/
theorem find_only {as : List TsAddr} {b : Bucket V}
    (hb : ((s.only as).tables a).find k = some b) :
    a ∈ as ∧ (s.tables a).find k = some b := by
  by_cases ha : a ∈ as
  · rw [only_tables ha] at hb
    exact ⟨ha, hb⟩
  · rw [show (s.only as).tables a = .init 8 from if_neg ha,
      HashTable.find_init] at hb
    cases hb

/-- Fewer tables share less. -/
theorem Good.only (hs : Good shared s) (as : List TsAddr) :
    Good shared (s.only as) where
  live hb := hs.live (find_only hb).2
  apart hb := hs.apart (find_only hb).2
  unique hb hp hb' hp' := hs.unique (find_only hb).2 hp (find_only hb').2 hp'
  key hb := hs.key (find_only hb).2
  interned hp := hs.interned hp

theorem only_setTable {as : List TsAddr} (ha : a ∈ as) (h : Memory)
    (t : HashTable (Bucket V)) :
    (s.only as).setTable a h t = (s.setTable a h t).only as := by
  unfold State.setTable State.only
  congr 1
  funext a'
  show Function.update (s.only as).tables a t a' = if a' ∈ as
    then Function.update s.tables a t a' else .init 8
  by_cases heq : a' = a
  · subst heq
    rw [Function.update_self, if_pos ha, Function.update_self]
  · rw [Function.update_of_ne heq, Function.update_of_ne heq]
    rfl

/-- A write to a table that is left does not see the others, -/
theorem only_write {as : List TsAddr} (ha : a ∈ as) (ka : KeyArg)
    (v : Written V) :
    (s.only as).write A a ka v = (s.write A a ka v).map (·.only as) := by
  unfold State.write
  dsimp only
  rw [only_tables ha, Option.map_map]
  exact congrArg (Option.map · _) (funext fun q => only_setTable ha q.1 q.2)

theorem only_mergeElement {as : List TsAddr} (ha : dst ∈ as)
    (e : KeyArg × Written V) :
    (s.only as).mergeElement A dst overwrite e
      = (s.mergeElement A dst overwrite e).map (·.only as) := by
  unfold State.mergeElement
  rw [only_tables ha]
  split
  case isTrue => rfl
  case isFalse => exact only_write ha e.1 e.2

/-- nor does a round of a merge between two that are. -/
theorem only_mergeEntry {as : List TsAddr} (hdst : dst ∈ as)
    (hsrc : src ∈ as) (k : Key) :
    (s.only as).mergeEntry A dst src overwrite k
      = (s.mergeEntry A dst src overwrite k).map (·.only as) := by
  unfold State.mergeEntry
  rw [only_tables hdst, only_tables hsrc]
  cases (s.tables src).find k with
  | none => rfl
  | some b =>
      dsimp only
      split
      case isTrue => rfl
      case isFalse =>
        rw [Option.map_bind]
        refine congrArg (Option.bind _) (funext fun ka => ?_)
        rw [Function.comp_apply, Option.map_bind]
        refine congrArg (Option.bind _) (funext fun r => ?_)
        rw [Function.comp_apply, Option.map_map]
        exact congrArg (Option.map · _)
          (funext fun q => only_setTable hdst q.1 q.2)

-- ============================================= merges that end well

/-- A merge that is spared leaves the destination with what merging the
values would. -/
theorem Good.merge_view (hs : Good True s)
    (hun : s.Unshared dst src overwrite) :
    ∃ s', s.merge A dst src overwrite = some s'
      ∧ s'.view dst = mergeInto overwrite (s.view dst) (s.view src) := by
  have hdst : dst ∈ [dst, src] := List.mem_cons_self
  have hsrc : src ∈ [dst, src] :=
    List.mem_cons_of_mem _ List.mem_cons_self
  have hu := hs.only [dst, src]
  have hunshared : (s.only [dst, src]).Unshared dst src overwrite := by
    unfold State.Unshared
    rw [only_tables hdst, only_tables hsrc]
    exact hun
  have hsole : overwrite = true → ∀ k,
      ((s.only [dst, src]).tables src).contains k = true →
      (s.only [dst, src]).Sole dst k := by
    intro hover k _ b' hb' p hp
    by_cases hforever : s.Forever p
    · exact .inl hforever
    · refine .inr fun a' b hn hb hp' => ?_
      have hb := find_only hb
      obtain rfl : a' = src := List.mem_singleton.mp
        ((List.mem_cons.mp hb.1).resolve_left hn)
      exact hforever (hun hover k b b' hb.2 (find_only hb').2 p hp' hp)
  obtain ⟨u, hrun, -, hview⟩ := loop_views (s := s.only [dst, src])
    (a := dst) (f := State.mergeEntry A dst src overwrite)
    (fun k => (k, s.contents src k)) (s.keys src) (fun k hk u hu => by
      have hkeys : k ∈ u.keys src := by
        refine Classical.byContradiction fun hnot => ?_
        have hnone := HashTable.find_eq_none_iff.mpr hnot
        rw [hu.find, only_tables hsrc] at hnone
        exact HashTable.find_eq_none_iff.mp hnone hk
      have hcontents : u.contents src k = s.contents src k := by
        rw [hu.contents]
        unfold State.contents
        rw [only_tables hsrc]
        rfl
      rw [← hcontents]
      exact hu.good.mergeEntry_view
        (hu.shareable (hunshared.shareable hsole k)) hkeys)
    (s.only [dst, src]) (by
      rw [List.map_id']
      exact nodup_keys s src) hu fun k _ => hu.agrees k
  have hmerge : (s.only [dst, src]).merge A dst src overwrite
      = (s.merge A dst src overwrite).map (·.only [dst, src]) := by
    unfold State.merge State.keys
    rw [only_tables hsrc]
    exact foldlM_comm (fun u k => only_mergeEntry hdst hsrc k) _ s
  have hkeys : (s.only [dst, src]).keys src = s.keys src := by
    unfold State.keys
    rw [only_tables hsrc]
  unfold State.merge at hmerge
  rw [hkeys, hrun] at hmerge
  obtain ⟨s', hs', rfl⟩ := Option.map_eq_some_iff.mp hmerge.symm
  refine ⟨s', hs', ?_⟩
  rw [only_view hdst, only_view hdst] at hview
  rw [hview, State.view_eq s src]

/-- Merging an array always does. -/
theorem Good.mergeArray_view (hs : Good True s) (dst : TsAddr)
    (overwrite : Bool) {es : List (KeyArg × Written V)}
    (hnd : (es.map fun e => e.1.key).Nodup)
    (hvalid : ∀ e ∈ es, e.1.Valid s.memory ∧ e.2.Valid s.memory) :
    ∃ s', s.mergeArray A dst overwrite es = some s'
      ∧ (∀ e ∈ s'.view dst, e.2.isSome = true)
      ∧ s'.view dst
        = mergeInto overwrite (s.view dst) (es.map element) := by
  have hdst : dst ∈ [dst] := List.mem_cons_self
  have hu := hs.only [dst]
  have hsole : ∀ k, (s.only [dst]).Sole dst k := fun k b hb p _ =>
    .inr fun a' b' hn hb' _ =>
      hn (List.mem_singleton.mp (find_only hb').1)
  obtain ⟨u, hrun, hgood, hview⟩ := loop_views (s := s.only [dst])
    (a := dst) (f := State.mergeElement A dst overwrite) element es
    (fun e he u hu => hu.good.mergeElement_view (hu.sole (hsole _))
      ((hvalid e he).1.mono hu.permanent)
      ((hvalid e he).2.mono hu.permanent))
    (s.only [dst]) hnd hu fun e _ => hu.agrees _
  have hmerge : (s.only [dst]).mergeArray A dst overwrite es
      = (s.mergeArray A dst overwrite es).map (·.only [dst]) :=
    foldlM_comm (fun u e => only_mergeElement hdst e) es s
  rw [show (s.only [dst]).mergeArray A dst overwrite es = some u from hrun]
    at hmerge
  obtain ⟨s', hs', rfl⟩ := Option.map_eq_some_iff.mp hmerge.symm
  refine ⟨s', hs', fun e he => ?_, ?_⟩
  · exact hgood.view_isSome (a := dst) (by rw [only_view hdst]; exact he)
  · rw [only_view hdst, only_view hdst] at hview
    exact hview

-- ==================================================== merges that do not

theorem saveString_ages (hA : A.NoReuse) (h : Memory) (str : Arg) :
    Ages h (saveString A h str).2 := by
  unfold saveString
  split
  case h_1 => exact .refl h
  case h_2 => exact ages_place hA h _

theorem newKey_ages (hA : A.NoReuse) (h : Memory) (ka : KeyArg) :
    Ages h (newKey A h ka).2 := by
  cases ka with
  | long n => exact .refl h
  | str str => exact saveString_ages hA h str

/-- Copies are new or not at all. -/
theorem hardCopyStorage_ages (hA : A.NoReuse) {v : Saved V}
    {r : Saved V × Memory} (hr : hardCopyStorage A h v = some r) :
    Ages h r.2 := by
  cases v with
  | plain v =>
      obtain rfl := Option.some.inj hr
      exact .refl h
  | string p =>
      obtain ⟨str, -, rfl⟩ := Option.map_eq_some_iff.mp hr
      exact saveString_ages hA h str
  | stringPtr owner bytes =>
      obtain rfl := Option.some.inj hr
      exact saveString_ages hA h _
  | enumCase cls member =>
      obtain rfl := Option.some.inj hr
      exact .refl h

/-- An update frees and allocates. -/
theorem updateSharedProperty_ages (hA : A.NoReuse)
    {t : HashTable (Bucket V)} {ka : KeyArg} {v : Saved V}
    {q : Memory × HashTable (Bucket V)}
    (hq : updateSharedProperty A h t ka v = some q) : Ages h q.1 := by
  unfold updateSharedProperty at hq
  split at hq
  case h_1 b _ =>
    obtain ⟨_, hd, rfl⟩ := Option.map_eq_some_iff.mp hq
    exact dropAll_ages ((storageDtor_eq h b.value).symm.trans hd)
  case h_2 =>
    obtain rfl := Option.some.inj hq
    exact newKey_ages hA h ka

/-- In the middle of a merge, with the rounds of `ks` to come, whatever
the rounds before have freed. -/
structure Midway (s u : State V) (ks : List Key) : Prop where
  ages : Ages s.memory u.memory
  find : ∀ {a k}, k ∈ ks → (u.tables a).find k = (s.tables a).find k

/-- A string that is still there is the one that was there, so a round
changes the entry of its own key. -/
theorem Midway.key {u : State V} {ks : List Key} (hu : Midway s u (k :: ks))
    (hs : Good shared s) {b : Bucket V}
    (hb : (u.tables src).find k = some b) {ka : KeyArg}
    (hka : bucketKey u.memory k b = some ka) : ka.key = k := by
  rw [hu.find List.mem_cons_self] at hb
  have hkey := hs.key hb
  cases k with
  | long n => rw [← Option.some.inj hka]; rfl
  | str bytes =>
      obtain ⟨q, x, hq, hx, rfl⟩ := hkey
      simp only [bucketKey, hq] at hka
      obtain ⟨str, hstr, rfl⟩ := Option.map_eq_some_iff.mp hka
      obtain ⟨y, hy, rfl⟩ := Option.map_eq_some_iff.mp hstr
      rcases hu.ages.get (mem_past_of_get hx) with heq | hnone
      · rw [heq, hx] at hy
        rw [← Option.some.inj hy]
        rfl
      · rw [hnone] at hy
        cases hy

/-- A round leaves the entries of other keys, even if it frees their names.
-/
theorem Midway.round (hA : A.NoReuse) (hs : Good shared s) {u u' : State V}
    {ks : List Key} (hu : Midway s u (k :: ks)) (hk : k ∉ ks)
    (hstep : u.mergeEntry A dst src overwrite k = some u') :
    Midway s u' ks ∧ Ages u.memory u'.memory
      ∧ ∀ {a' k'}, k' ≠ k → (u'.tables a').find k' = (u.tables a').find k' := by
  have hrest : ∀ {u'' : State V}, Ages u.memory u''.memory →
      (∀ {a' k'}, k' ≠ k →
        (u''.tables a').find k' = (u.tables a').find k') →
      Midway s u'' ks := fun hages hsame =>
    ⟨hu.ages.trans hages, fun {a' k'} hk' =>
      (hsame fun heq => hk (heq ▸ hk')).trans
        (hu.find (List.mem_cons_of_mem _ hk'))⟩
  cases hb : (u.tables src).find k with
  | none =>
      unfold State.mergeEntry at hstep
      rw [hb] at hstep
      obtain rfl := Option.some.inj hstep
      exact ⟨hrest (.refl _) fun _ => rfl, .refl _, fun _ => rfl⟩
  | some b =>
      by_cases hskip : (!overwrite && (u.tables dst).contains k) = true
      · unfold State.mergeEntry at hstep
        rw [hb] at hstep
        obtain rfl := Option.some.inj ((if_pos hskip).symm.trans hstep)
        exact ⟨hrest (.refl _) fun _ => rfl, .refl _, fun _ => rfl⟩
      · obtain ⟨ka, r, q, hka, hr, hq, rfl⟩ := mergeEntry_eq hb hskip hstep
        obtain rfl := hu.key hs hb hka
        obtain ⟨kp, ht⟩ := updateSharedProperty_table hq
        have hages : Ages u.memory q.1 :=
          (hardCopyStorage_ages hA hr).trans
            (updateSharedProperty_ages hA hq)
        have hsame : ∀ {a' k'}, k' ≠ ka.key →
            ((u.setTable dst q.1 q.2).tables a').find k'
              = (u.tables a').find k' := fun hn => by
          rw [ht, find_setTable fun hn => HashTable.find_update_ne true _ _ hn,
            if_neg fun h => hn h.2]
        exact ⟨hrest hages hsame, hages, hsame⟩

/-- The rounds before one key, and those after it. -/
theorem Midway.rounds (hA : A.NoReuse) (hs : Good shared s)
    (post : List Key) : ∀ (ks : List Key) (u u' : State V),
      (ks ++ post).Nodup → Midway s u (ks ++ post) →
      ks.foldlM (State.mergeEntry A dst src overwrite) u = some u' →
      Midway s u' post ∧ Ages u.memory u'.memory
        ∧ ∀ {a' k'}, k' ∉ ks →
          (u'.tables a').find k' = (u.tables a').find k' := by
  intro ks
  induction ks with
  | nil =>
      intro u u' _ hu hrun
      obtain rfl := Option.some.inj hrun
      exact ⟨hu, .refl _, fun _ => rfl⟩
  | cons k ks ih =>
      intro u u' hnd hu hrun
      obtain ⟨hnot, hnd⟩ := List.nodup_cons.mp hnd
      obtain ⟨u₁, hstep, hrun⟩ := foldlM_cons_iff.mp hrun
      obtain ⟨hu₁, hages₁, hsame₁⟩ := hu.round hA hs hnot hstep
      obtain ⟨hu', hages, hsame⟩ := ih u₁ u' hnd hu₁ hrun
      refine ⟨hu', hages₁.trans hages, fun hk' => ?_⟩
      obtain ⟨hn, hk'⟩ := not_or.mp (List.mem_cons.not.mp hk')
      exact (hsame hk').trans (hsame₁ hn)

/-- The names of an enum case are taken over. -/
theorem hardCopyStorage_names {v : Saved V} {p : Nat} (hp : p ∈ v.names) :
    hardCopyStorage A h v = some (v, h) := by
  cases v with
  | enumCase cls member => rfl
  | _ => cases hp

/-- The round that replaces an entry by one with a name of its own frees
the name. -/
theorem round_frees {b b' : Bucket V} {p : Nat}
    (hb : (s.tables src).find k = some b)
    (hb' : (s.tables dst).find k = some b') (hp : p ∈ b.value.names)
    (hp' : p ∈ b'.value.names) (hown : Owned ZString.permanent s.memory p)
    (hkey : ∀ {ka}, bucketKey s.memory k b = some ka → ka.key = k)
    (hstep : s.mergeEntry A dst src true k = some s') :
    s'.memory.get p = none
      ∧ ∃ kp, (s'.tables dst).find k = some ⟨kp, b.value⟩ := by
  obtain ⟨ka, r, q, hka, hr, hq, rfl⟩ :=
    mergeEntry_eq hb (by rw [Bool.not_true]; exact Bool.false_ne_true) hstep
  obtain rfl := hkey hka
  rw [hardCopyStorage_names hp] at hr
  obtain rfl := Option.some.inj hr
  unfold updateSharedProperty at hq
  rw [hb'] at hq
  obtain ⟨h₁, hd, rfl⟩ := Option.map_eq_some_iff.mp hq
  refine ⟨dropAll_owned (Saved.strings_of_names hp') hown
    ((storageDtor_eq _ b'.value).symm.trans hd), b'.key, ?_⟩
  rw [setTable_tables, HashTable.find_update_self]

/-- A merge that is not spared leaves an entry with a name that is
freed. -/
theorem Good.merge_dangles (hA : A.NoReuse) (hs : Good shared s)
    (hun : ¬ s.Unshared dst src overwrite)
    (hmerge : s.merge A dst src overwrite = some s') :
    ∃ k, (k, none) ∈ s'.view dst := by
  unfold State.Unshared at hun
  push Not at hun
  obtain ⟨rfl, k, b, b', hb, hb', p, hp, hp', hforever⟩ := hun
  have hk : k ∈ s.keys src := List.mem_map.mpr
    ⟨(k, b), HashTable.find_eq_some_iff.mp hb, rfl⟩
  obtain ⟨pre, post, hkeys⟩ := List.append_of_mem hk
  have hnd := nodup_keys s src
  unfold State.merge at hmerge
  rw [hkeys] at hnd hmerge
  obtain ⟨u, hpre, hmerge⟩ := foldlM_append_iff.mp hmerge
  obtain ⟨u', hround, hpost⟩ := foldlM_cons_iff.mp hmerge
  obtain ⟨x, hx⟩ :=
    hs.live hb (List.mem_append_right _ (Saved.strings_of_names hp))
  have hpast := mem_past_of_get hx
  have hown : Owned ZString.permanent s.memory p := fun y hy => by
    obtain rfl := Option.some.inj (hx.symm.trans hy)
    refine Bool.eq_false_iff.mpr fun hperm => hforever ⟨x.bytes, ?_⟩
    rw [hx, ← hperm]
  obtain ⟨hu, -, -⟩ := Midway.rounds hA hs (k :: post) pre s u hnd
    ⟨.refl _, fun _ => rfl⟩ hpre
  have hnd' := (List.nodup_append.mp hnd).2.1
  obtain ⟨hnot, hndpost⟩ := List.nodup_cons.mp hnd'
  have hbu := (hu.find (a := src) List.mem_cons_self).trans hb
  obtain ⟨hdead, kp, hfind⟩ := round_frees hbu
    ((hu.find List.mem_cons_self).trans hb') hp hp'
    (hu.ages.owned hpast hown) (hu.key hs hbu) hround
  obtain ⟨hu', -, -⟩ := hu.round hA hs hnot hround
  have happend : post ++ [] = post := List.append_nil post
  obtain ⟨-, hages, hsame⟩ := Midway.rounds hA hs [] post u' s'
    (by rw [happend]; exact hndpost) (by rw [happend]; exact hu') hpost
  have hend : (s'.tables dst).find k = some ⟨kp, b.value⟩ :=
    (hsame hnot).trans hfind
  refine ⟨k, List.mem_map.mpr
    ⟨_, HashTable.find_eq_some_iff.mp hend, ?_⟩⟩
  exact congrArg (Prod.mk k) (restoreZval_dead (Saved.strings_of_names hp)
    (hages.dead (hu'.ages.past hpast) hdead))

end PmmpThread.Model.SharedStrings

namespace PmmpThread.Model.World

open Zend

variable {E : Engine} {t : ThreadId} {w : World}

-- ========================================================== both models

/-- What a value of the shared tables is. -/
def denote : SharedStrings.Content Content → Content
  | .plain c => c
  | .string b => .bytes b
  | .enumCase cls name => .enumCase cls name

/-- The storages `es` stand for what the table has, whose strings are in
memory. -/
def Shows (w : World) (s : SharedStrings.State Content) (a : TsAddr)
    (es : List (Key × Storage)) : Prop :=
  mapVals (Option.map denote) (s.view a) = mapVals w.content es

/-- A copy of a storage, with its names by value or as pointers, stands for
the same until one of them is freed. -/
theorem hardCopyStorage_denotes (A : Allocator) {h : SharedStrings.Memory}
    {v : SharedStrings.Saved Content} {st : Storage} {d : Content}
    (hv : (SharedStrings.restoreZval h v).map denote = some d)
    (hst : w.content st = some d) :
    ∃ r st', SharedStrings.hardCopyStorage A h v = some r
      ∧ w.hardCopyStorage st = some st'
      ∧ (SharedStrings.restoreZval r.2 r.1).map denote = w.content st' := by
  obtain ⟨c, hc, rfl⟩ := Option.map_eq_some_iff.mp hv
  obtain ⟨r, hr, -, -, hrestore⟩ :=
    SharedStrings.hardCopyStorage_ends (A := A) hc
  obtain ⟨st', hst'⟩ := hardCopy_of_content hst
  refine ⟨r, st', hr, hst', ?_⟩
  rw [hrestore, content_hardCopy hst', hst, Option.map_some]

/-- Both paths come to their end and leave the same table. -/
def PathsAgree (A : Allocator) (E : Engine) (t : ThreadId) (w : World)
    (s : SharedStrings.State Content) (c a : Addr) (x y : Conn)
    (overwrite coerceArray : Bool) (es : List (Key × Php))
    (args : List (SharedStrings.KeyArg × SharedStrings.Written Content)) :
    Prop :=
  ∃ w₁ w₂ x₁ x₂ s₁ s₂,
    (w.merge E t c overwrite coerceArray (.threadSafeArray a)
          = some ⟨true, false, w₁⟩
        ∧ s.merge A x.s y.s overwrite = some s₁)
      ∧ (w.merge E t c overwrite coerceArray (.array es)
          = some ⟨true, false, w₂⟩
        ∧ s.mergeArray A x.s overwrite args = some s₂)
      ∧ w.MergedTable c x y overwrite w₁ x₁
      ∧ w.MergedTable c x y overwrite w₂ x₂
      ∧ w₁.Shows s₁ x.s x₁.o.props.hash.entries
      ∧ w₂.Shows s₂ x.s x₂.o.props.hash.entries
      ∧ s₁.view x.s = s₂.view x.s

/-- When the two paths of a merge agree. After calls that are spared, with
live values and canonical keys in the source, they leave the same keys in
the same order, standing for the same, and advance the modification count
if an entry was replaced that a connection may have cached, exactly if no
entry that is replaced has a name, not permanent, of the entry that
replaces it. -/
theorem merge_paths_agree_iff (E : Engine) (w : World) (t : ThreadId)
    {c a : Addr} {x y : Conn} (hx : w.conn c = some x)
    (hy : w.conn a = some y) (overwrite coerceArray : Bool)
    (hlive : ∀ e ∈ y.o.props.hash.entries,
      coerceKey e.1 = e.1 ∧ (w.content e.2).isSome = true)
    (es : List (Key × Php))
    (hes : mapVals w.elementContent es
      = mapVals w.content y.o.props.hash.entries)
    {B : Allocator} {h : SharedStrings.Memory}
    {engine : Bytes → Option Nat}
    (hengine : ∀ bytes p, engine bytes = some p →
      h.get p = some ⟨bytes, true⟩)
    {ops : List (SharedStrings.Op Content)}
    (hspared : (SharedStrings.State.init h engine).Spared B ops)
    {s : SharedStrings.State Content}
    (hrun : (SharedStrings.State.init h engine).run B ops = some s)
    (hdst : w.Shows s x.s x.o.props.hash.entries)
    (hsrc : w.Shows s y.s y.o.props.hash.entries)
    (args : List (SharedStrings.KeyArg × SharedStrings.Written Content))
    (hvalid : ∀ e ∈ args, e.1.Valid s.memory ∧ e.2.Valid s.memory)
    (hargs : args.map SharedStrings.element = s.view y.s) :
    (∀ A, PathsAgree A E t w s c a x y overwrite coerceArray es args)
      ↔ s.Unshared x.s y.s overwrite := by
  obtain ⟨s', hrun', hs⟩ := (SharedStrings.good_init hengine).spared hspared
  obtain rfl := Option.some.inj (hrun.symm.trans hrun')
  have hnd : (args.map fun e => e.1.key).Nodup := by
    have hkeys : args.map (fun e => e.1.key) = s.keys y.s := by
      rw [← SharedStrings.State.keys_view, ← hargs, List.map_map]
      rfl
    rw [hkeys]
    exact SharedStrings.nodup_keys s y.s
  constructor
  · intro hagree
    refine Classical.byContradiction fun hun => ?_
    obtain ⟨_, _, _, _, s₁, s₂, ⟨-, hm₁⟩, ⟨-, hm₂⟩, -, -, -, -, hview⟩ :=
      hagree .bump
    obtain ⟨k, hk⟩ :=
      hs.merge_dangles Allocator.bump_noReuse hun hm₁
    obtain ⟨s₂', hm₂', hsome, -⟩ :=
      hs.mergeArray_view (A := .bump) x.s overwrite hnd hvalid
    obtain rfl := Option.some.inj (hm₂.symm.trans hm₂')
    rw [hview] at hk
    exact absurd (hsome _ hk) Bool.false_ne_true
  · intro hun A
    obtain ⟨w₁, w₂, x₁, x₂, hw₁, hw₂, hmerged₁, hmerged₂⟩ :=
      merge_paths E w t hx hy overwrite coerceArray hlive es hes
    obtain ⟨s₁, hm₁, hview₁⟩ := hs.merge_view (A := A) hun
    obtain ⟨s₂, hm₂, -, hview₂⟩ :=
      hs.mergeArray_view (A := A) x.s overwrite hnd hvalid
    rw [hargs] at hview₂
    have hshows : mapVals (Option.map denote)
        (mergeInto overwrite (s.view x.s) (s.view y.s))
        = mergeInto overwrite (mapVals w.content x.o.props.hash.entries)
          (mapVals w.content y.o.props.hash.entries) := by
      rw [mapVals_mergeInto, hdst, hsrc]
    refine ⟨w₁, w₂, x₁, x₂, s₁, s₂, ⟨hw₁, hm₁⟩, ⟨hw₂, hm₂⟩, hmerged₁,
      hmerged₂, ?_, ?_, hview₁.trans hview₂.symm⟩
    · unfold Shows
      rw [hview₁, hshows, hmerged₁.contents]
    · unfold Shows
      rw [hview₂, hshows, hmerged₂.contents]

/-- Two arrays: `$a[5] = $a;` and `$b[5] = E::C; $b[6] = 1;`. -/
def withCase : List Act :=
  [.alloc 1 [] .threaded [], .ctor 1, .alloc 1 [] .threaded [], .ctor 1,
    .write 1 (some (.long 5)) (.object 1), .finish 1,
    .write 2 (some (.long 5)) (.enumCase [69] [67]), .finish 1,
    .write 2 (some (.long 6)) (.long 1), .finish 1]

/-- The same writes, with the names `E` and `C` in memory. -/
def withCaseNames : List (SharedStrings.Op Content) :=
  [.write 1 (.long 5) (.plain (.object 0)),
    .write 2 (.long 5) (.enumCase ⟨[69], none⟩ ⟨[67], none⟩),
    .write 2 (.long 6) (.plain (.long 1))]

theorem spared_withCaseNames :
    (SharedStrings.State.init Heap.empty fun _ => none).Spared
      Allocator.recycle withCaseNames := by
  have hown : ∀ {h : SharedStrings.Memory} bytes,
      SharedStrings.Arg.Valid h ⟨bytes, none⟩ := fun _ _ hp => by cases hp
  refine ⟨⟨trivial, trivial, SharedStrings.sole_of_find_none rfl⟩,
    fun s₁ h₁ => ?_⟩
  obtain rfl := Option.some.inj h₁
  refine ⟨⟨trivial, ⟨hown _, hown _⟩, SharedStrings.sole_of_find_none rfl⟩,
    fun s₂ h₂ => ?_⟩
  obtain rfl := Option.some.inj h₂
  exact ⟨⟨trivial, trivial, SharedStrings.sole_of_find_none rfl⟩,
    fun _ _ => trivial⟩

/-- `$a->merge($b, true);` replaces the object at 5, and so does merging
`[5 => E::C, 6 => 1]`. -/
theorem merge_paths_agree_iff_withCase : ∃ w x y s,
    run (demoEngine .bump) init withCase = some w ∧ w.conn 1 = some x
      ∧ w.conn 2 = some y
      ∧ (SharedStrings.State.init Heap.empty fun _ => none).run
          Allocator.recycle withCaseNames = some s
      ∧ ∀ A, PathsAgree A (demoEngine .bump) 1 w s 1 2 x y true true
          [(.long 5, .leaf (.enumCase [69] [67])),
            (.long 6, .leaf (.long 1))]
          [(.long 5, .enumCase ⟨[69], none⟩ ⟨[67], none⟩),
            (.long 6, .plain (.long 1))] := by
  have hview : ((run (demoEngine .bump) init withCase).bind fun w =>
      (w.conn 1).map fun x => (x.s, mapVals w.content x.o.props.hash.entries))
      = some (1, [(.long 5, some (.object 0))]) := by
    decide
  have hsource : ((run (demoEngine .bump) init withCase).bind fun w =>
      (w.conn 2).map fun y => (y.s, y.o.props.hash.entries))
      = some (2, [(.long 5, .enumCase [69] [67]), (.long 6, .long 1)]) := by
    decide
  obtain ⟨w, hw, hv⟩ := Option.bind_eq_some_iff.mp hview
  obtain ⟨x, hx, hv⟩ := Option.map_eq_some_iff.mp hv
  obtain ⟨hxs, hxe⟩ := Prod.mk.inj hv
  rw [hw, Option.bind_some] at hsource
  obtain ⟨y, hy, hv⟩ := Option.map_eq_some_iff.mp hsource
  obtain ⟨hys, hye⟩ := Prod.mk.inj hv
  obtain ⟨s, hs, hview₁, hview₂, htable⟩ : ∃ s,
      (SharedStrings.State.init Heap.empty fun _ => none).run
          Allocator.recycle withCaseNames = some s
        ∧ s.view 1 = [(.long 5, some (.plain (.object 0)))]
        ∧ s.view 2 = [(.long 5, some (.enumCase [69] [67])),
          (.long 6, some (.plain (.long 1)))]
        ∧ (s.tables 1).entries = [(.long 5, ⟨none, .plain (.object 0)⟩)] :=
    ⟨_, rfl, rfl, rfl, rfl⟩
  have hown : ∀ bytes, SharedStrings.Arg.Valid s.memory ⟨bytes, none⟩ :=
    fun _ _ hp => by cases hp
  refine ⟨w, x, y, s, hw, hx, hy, hs, (merge_paths_agree_iff
    (demoEngine .bump) w 1 hx hy true true ?_ _ ?_ (fun _ _ hp => by cases hp)
    spared_withCaseNames hs ?_ ?_ _ ?_ ?_).mpr ?_⟩
  · rw [hye]
    intro e he
    rcases List.mem_cons.mp he with rfl | he
    · exact ⟨rfl, rfl⟩
    · rw [List.mem_singleton.mp he]
      exact ⟨rfl, rfl⟩
  · rw [hye]
    rfl
  · unfold Shows
    rw [hxs, hview₁, hxe]
    rfl
  · unfold Shows
    rw [hys, hview₂, hye]
    rfl
  · intro e he
    rcases List.mem_cons.mp he with rfl | he
    · exact ⟨trivial, hown _, hown _⟩
    · rw [List.mem_singleton.mp he]
      exact ⟨trivial, trivial⟩
  · rw [hys, hview₂]
    rfl
  · rw [hxs]
    intro _ k b b' _ hb' p _ hp'
    have hmem := HashTable.find_eq_some_iff.mp hb'
    rw [htable] at hmem
    rw [(Prod.mk.inj (List.mem_singleton.mp hmem)).2] at hp'
    cases hp'

/-- `$a[0] = E::C; $a->merge($a, true);` leaves an entry whose names are
freed, merging `[0 => E::C]` does not. -/
theorem merge_paths_disagree :
    ∃ s s₁ s₂ : SharedStrings.State Content,
      (SharedStrings.State.init Heap.empty fun _ => none).run
          Allocator.recycle
          [.write 1 (.long 0) (.enumCase ⟨[69], none⟩ ⟨[67], none⟩)] = some s
        ∧ s.merge Allocator.recycle 1 1 true = some s₁
        ∧ s.mergeArray Allocator.recycle 1 true
            [(.long 0, .enumCase ⟨[69], none⟩ ⟨[67], none⟩)] = some s₂
        ∧ s.view 1 = [(.long 0, some (.enumCase [69] [67]))]
        ∧ s₁.view 1 = [(.long 0, none)]
        ∧ s₂.view 1 = [(.long 0, some (.enumCase [69] [67]))] :=
  ⟨_, _, _, rfl, rfl, rfl, rfl, rfl, rfl⟩

end PmmpThread.Model.World
