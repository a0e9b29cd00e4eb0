/-
What each operation does to the two tables it touches, key by key: the
shared table through `find`, the local one through `cached`, and the
two modification counts. No world and no thread appears here; the
invariants of the next modules are argued in these terms alone.
-/
import PmmpThread.Proofs.Moves

namespace PmmpThread.Model

open Zend

-- ============================================================= stores

namespace Store

variable {V : Type}

/-- The guard drops bounds only. -/
theorem hash_guardRehash (s : Store V) : s.guardRehash.hash = s.hash := by
  unfold guardRehash
  split <;> rfl

/-- A write moves the bounds apart from the table. -/
theorem hash_moveBounds (s : Store V) (key : Option Key) :
    (s.moveBounds key).hash = s.hash := by
  unfold moveBounds
  split <;> rfl

theorem modcount_guardRehash (s : Store V) :
    s.guardRehash.modcount = s.modcount := by
  unfold guardRehash
  split <;> rfl

theorem modcount_moveBounds (s : Store V) (key : Option Key) :
    (s.moveBounds key).modcount = s.modcount := by
  unfold moveBounds
  split <;> rfl

/-- A write is an update of the table at the member key. -/
theorem find_write (s : Store V) (key : Option Key) (v : V) (compact : Bool)
    (k : Key) :
    (s.write key v compact).hash.find k
      = if k = s.member key then some v else s.hash.find k := by
  unfold write
  rw [hash_moveBounds, hash_guardRehash]
  exact HashTable.find_update compact s.hash (s.member key) k v

/-- The store itself does not count; the caller does. -/
@[simp] theorem modcount_write (s : Store V) (key : Option Key) (v : V)
    (compact : Bool) : (s.write key v compact).modcount = s.modcount := by
  unfold write
  rw [modcount_moveBounds, modcount_guardRehash]

/-- A deletion takes one key out. -/
theorem find_del (t : HashTable V) (k k' : Key) :
    (t.del k).find k' = if k' = k then none else t.find k' := by
  by_cases h : k' = k
  · rw [if_pos h, h, HashTable.find_del_self]
  · rw [if_neg h, HashTable.find_del_ne _ h]

/-- The same for the store, whose bounds do not matter. -/
theorem find_delete (s : Store V) (k k' : Key) :
    (s.delete k).hash.find k' = if k' = k then none else s.hash.find k' :=
  find_del s.hash k k'

/-- What a position shows is in the table. -/
theorem find_of_getCurrent {t : HashTable V} {pos : Nat} {e : Key × V}
    (h : t.getCurrent pos = some e) : t.find e.1 = some e.2 := by
  refine HashTable.find_eq_some_iff.mpr ?_
  unfold HashTable.getCurrent at h
  have hm := List.mem_of_getElem? (Option.join_eq_some_iff.mp h)
  exact List.reduceOption_mem_iff.mpr hm

theorem modcount_advanceFirst (s : Store V) (pos : Nat) :
    (s.advanceFirst pos).2.modcount = s.modcount := by
  unfold advanceFirst
  split <;> rfl

theorem modcount_retreatLast (s : Store V) (pos : Nat) :
    (s.retreatLast pos).modcount = s.modcount := by
  unfold retreatLast
  split <;> rfl

/-- Taking from either end removes an entry of the table. -/
theorem take_spec {s p : Store V} {e : Key × V}
    (h : s.shift = (some e, p) ∨ s.pop = (some e, p)) :
    s.hash.find e.1 = some e.2 ∧ p.hash = s.hash.del e.1
      ∧ p.modcount = s.modcount := by
  rcases h with h | h
  · unfold shift at h
    cases hc : s.hash.getCurrent s.firstPos with
    | none => rw [hc] at h; cases h
    | some e' =>
        rw [hc] at h
        obtain ⟨h1, h2⟩ := Prod.mk.inj h
        rw [← Option.some.inj h1, ← h2]
        exact ⟨find_of_getCurrent hc, rfl, modcount_advanceFirst s _⟩
  · unfold pop at h
    cases hc : s.hash.getCurrent s.lastPos with
    | none => rw [hc] at h; cases h
    | some e' =>
        rw [hc] at h
        obtain ⟨h1, h2⟩ := Prod.mk.inj h
        rw [← Option.some.inj h1, ← h2]
        exact ⟨find_of_getCurrent hc, rfl, modcount_retreatLast s _⟩

/-- A chunk gives up what it hands out, and nothing else. -/
theorem chunkLoop_find (n : Nat) :
    ∀ (s : Store V) (pos : Nat),
      (∀ e ∈ (chunkLoop n pos s).1, s.hash.find e.1 = some e.2)
        ∧ (∀ k, (chunkLoop n pos s).2.hash.find k
          = if k ∈ (chunkLoop n pos s).1.map Prod.fst then none
            else s.hash.find k)
        ∧ (chunkLoop n pos s).2.modcount = s.modcount := by
  induction n with
  | zero =>
      intro s pos
      exact ⟨fun e he => (nomatch he), fun k => by simp [chunkLoop], rfl⟩
  | succ n ih =>
      intro s pos
      unfold chunkLoop
      cases hc : s.hash.getCurrent pos with
      | none => exact ⟨fun e he => (nomatch he), fun k => by simp, rfl⟩
      | some e =>
          obtain ⟨h1, h2, h3⟩ := ih
            { (s.advanceFirst pos).2 with hash := s.hash.del e.1 }
            (s.advanceFirst pos).1
          refine ⟨?_, ?_, ?_⟩
          · intro f hf
            rcases List.mem_cons.mp hf with rfl | hf
            · exact find_of_getCurrent hc
            · have := h1 f hf
              change (s.hash.del e.1).find f.1 = some f.2 at this
              rw [find_del] at this
              split at this
              · cases this
              · exact this
          · intro k
            refine (h2 k).trans ?_
            show (if _ then none else (s.hash.del e.1).find k) = _
            rw [find_del, List.map_cons]
            by_cases hk : k = e.1
            · simp only [List.mem_cons, hk, true_or, if_true, ite_self]
            · simp only [List.mem_cons, hk, false_or, if_false]
          · exact h3.trans (modcount_advanceFirst s pos)

/-- Chunking removes entries of the table. -/
theorem chunk_find (s : Store V) (size : Int) :
    (∀ e ∈ (s.chunk size).1, s.hash.find e.1 = some e.2)
      ∧ (∀ k, (s.chunk size).2.hash.find k
        = if k ∈ (s.chunk size).1.map Prod.fst then none
          else s.hash.find k)
      ∧ (s.chunk size).2.modcount = s.modcount :=
  chunkLoop_find _ s _

end Store

-- ======================================================= local tables

namespace Local

@[simp] theorem modcount_initProps (d : List Key) (l : Local) :
    (l.initProps d).modcount = l.modcount := by
  unfold initProps
  split <;> rfl

@[simp] theorem modcount_updateLocalProperty (d : List Key) (l : Local)
    (k : Key) (v : Zval) :
    (l.updateLocalProperty d k v).modcount = l.modcount := by
  unfold updateLocalProperty
  split <;> rfl

/-- After a sync the local table has the count of the store. -/
theorem modcount_sync (keep : Storage → Zval → Bool) (h : HashTable Storage)
    (m : Int) (l : Local) : (l.sync keep h m).modcount = m := by
  unfold sync
  split
  case isTrue heq => exact heq
  case isFalse => rfl

/-- A property that is only declared is not cached. -/
theorem find_indirects (d : List Key) (t : HashTable Zval) (k : Key) :
    ((d.foldl (fun t k => t.update true k .indirect) t).find k).filter
        validLocalCacheItem
      = if k ∈ d then none else (t.find k).filter validLocalCacheItem := by
  induction d generalizing t with
  | nil => simp
  | cons k' d ih =>
      rw [List.foldl_cons, ih, HashTable.find_update]
      by_cases hd : k ∈ d
      · simp [hd]
      · by_cases hk : k = k'
        · rw [if_neg hd, if_pos hk, if_pos (List.mem_cons.mpr (Or.inl hk))]
          rfl
        · rw [if_neg hd, if_neg hk, if_neg]
          intro hm
          rcases List.mem_cons.mp hm with h | h
          · exact hk h
          · exact hd h

/-- Making the property table caches nothing. -/
@[simp] theorem cached_initProps (d : List Key) (l : Local) (k : Key) :
    (l.initProps d).cached k = l.cached k := by
  unfold initProps
  cases hp : l.props with
  | some t => rfl
  | none =>
      unfold cached table
      rw [hp]
      simp only [Option.getD_some, Option.getD_none]
      rw [find_indirects, HashTable.find_init]
      split <;> rfl

/-- A value that is put is cached if it is of the kind that is valid. -/
theorem cached_put (d : List Key) (l : Local) (k k' : Key) (v : Zval) :
    (l.put d k v).cached k'
      = if k' = k then (some v).filter validLocalCacheItem
        else l.cached k' := by
  rw [← cached_initProps d l k']
  unfold put cached
  show ((HashTable.update true (l.initProps d).table k v).find k').filter _
    = _
  rw [HashTable.find_update]
  split <;> rfl

/-- What a thread may keep is valid when it is found again. -/
theorem valid_of_retain {v : Zval} (h : retainInLocalCache v = true) :
    (some v).filter validLocalCacheItem = some v := by
  cases v with
  | indirect => cases h
  | _ => rfl

/-- Only what a thread may keep is put into the local table. -/
theorem cached_updateLocalProperty (d : List Key) (l : Local) (k k' : Key)
    (v : Zval) :
    (l.updateLocalProperty d k v).cached k'
      = if k' = k ∧ retainInLocalCache v = true then some v
        else l.cached k' := by
  unfold updateLocalProperty
  by_cases hr : retainInLocalCache v = true
  · rw [if_pos hr, cached_put, valid_of_retain hr]
    by_cases hk : k' = k
    · rw [if_pos hk, if_pos ⟨hk, hr⟩]
    · rw [if_neg hk, if_neg fun h => hk h.1]
  · rw [if_neg hr, if_neg fun h => hr h.2]

theorem cached_del (l : Local) (k k' : Key) :
    (l.del k).cached k' = if k' = k then none else l.cached k' := by
  unfold del cached table
  cases hp : l.props with
  | none =>
      simp only [Option.map_none, Option.getD_none, HashTable.find_init]
      split <;> rfl
  | some t =>
      simp only [Option.map_some, Option.getD_some]
      rw [Store.find_del]
      split <;> rfl

/-- What was taken is not cached any more. -/
theorem cached_dels (es : List (Key × Storage)) (l : Local) (k : Key) :
    (es.foldl (fun l e => l.del e.1) l).cached k
      = if k ∈ es.map Prod.fst then none else l.cached k := by
  induction es generalizing l with
  | nil => simp
  | cons e es ih =>
      rw [List.foldl_cons, ih, cached_del, List.map_cons]
      by_cases hk : k = e.1
      · simp only [List.mem_cons, hk, true_or, if_true, ite_self]
      · simp only [List.mem_cons, hk, false_or, if_false]

theorem modcount_dels (es : List (Key × Storage)) (l : Local) :
    (es.foldl (fun l e => l.del e.1) l).modcount = l.modcount := by
  induction es generalizing l with
  | nil => rfl
  | cons e es ih => exact ih _

/-- What is cached after a sync is what was cached, unless the local
table was out of date and the storage no longer matches. -/
theorem cached_sync {keep : Storage → Zval → Bool}
    (hkeep : ∀ st, keep st .indirect = false) (h : HashTable Storage)
    (m : Int) (l : Local) (k : Key) :
    (l.sync keep h m).cached k
      = if l.modcount = m then l.cached k
        else (l.cached k).filter fun v =>
          ((h.find k).map fun st => keep st v).getD false := by
  unfold sync
  by_cases hm : l.modcount = m
  · rw [if_pos hm, if_pos hm]
  · rw [if_neg hm, if_neg hm]
    unfold cached table
    cases hp : l.props with
    | none =>
        simp only [Option.map_none, Option.getD_none, HashTable.find_init]
        rfl
    | some t =>
        simp only [Option.map_some, Option.getD_some, HashTable.find_filter]
        cases t.find k with
        | none => rfl
        | some v =>
            cases hst : h.find k with
            | none =>
                cases hv : validLocalCacheItem v <;> simp [Option.filter, hv]
            | some st =>
                by_cases hk : keep st v = true
                · have hv : validLocalCacheItem v = true := by
                    cases v with
                    | indirect => rw [hkeep st] at hk; cases hk
                    | _ => rfl
                  simp [Option.filter, hk, hv]
                · cases hv : validLocalCacheItem v <;>
                    simp [Option.filter, hk, hv]

end Local

/-- Counting is the whole of it. -/
theorem bumpIf_hash (b : Bool) (l : Local) (s : Store Storage) :
    (bumpIf b l s).2.hash = s.hash := by
  unfold bumpIf bumpModcount
  split <;> rfl

/-- The store counts one up on the condition. -/
theorem bumpIf_modcount (b : Bool) (l : Local) (s : Store Storage) :
    (bumpIf b l s).2.modcount = s.modcount + (if b then 1 else 0) := by
  unfold bumpIf bumpModcount
  cases b with
  | true => rfl
  | false => exact (Int.add_zero _).symm

theorem bumpIf_cached (b : Bool) (l : Local) (s : Store Storage) (k : Key) :
    (bumpIf b l s).1.cached k = l.cached k := by
  unfold bumpIf bumpModcount
  cases b with
  | true =>
      show (if _ then { l with modcount := l.modcount + 1 } else l).cached k
        = _
      split <;> rfl
  | false => rfl

/-- A bump keeps a local table in step, or behind, as it was. -/
theorem bumpIf_local_modcount (b : Bool) (l : Local) (s : Store Storage) :
    (bumpIf b l s).1.modcount
      = if b ∧ l.modcount = s.modcount then l.modcount + 1
        else l.modcount := by
  unfold bumpIf bumpModcount
  cases b with
  | true =>
      show (if _ then { l with modcount := l.modcount + 1 } else l).modcount
        = _
      by_cases h : l.modcount = s.modcount
      · rw [if_pos h, if_pos ⟨rfl, h⟩]
      · rw [if_neg h, if_neg fun hh => h hh.2]
  | false => rfl

/-- After it a connection is in sync exactly if it was, or if its count was
one ahead and there was a bump. -/
theorem bumpIf_inSync (b : Bool) (l : Local) (s : Store Storage) :
    (bumpIf b l s).1.modcount = (bumpIf b l s).2.modcount
      ↔ l.modcount = s.modcount
        ∨ (b = true ∧ l.modcount = s.modcount + 1) := by
  rw [bumpIf_local_modcount, bumpIf_modcount]
  cases b with
  | true =>
      by_cases h : l.modcount = s.modcount
      · simp [h]
      · simp [h]
  | false => simp

-- ============================================================== merge

namespace World

/-- The entries of a merge that are written. -/
def Written (overwrite : Bool) (h : HashTable Storage)
    (es : List (Key × Storage)) (k : Key) (st : Storage) : Prop :=
  (k, st) ∈ es ∧ (overwrite = true ∨ h.find k = none)

/-- What the loop of a merge does to one key: it is written or not, dropped
from the local table if written, and reported if it was there to be cached.
-/
theorem mergeLoop_spec (overwrite : Bool) (es : List (Key × Storage)) :
    ∀ (h : HashTable Storage) (l : Local) (ov : Bool),
      (es.map Prod.fst).Nodup →
      let r := mergeLoop overwrite es (h, l, ov)
      (∀ k, (∃ st, Written overwrite h es k st ∧ r.1.find k = some st
            ∧ r.2.1.cached k = none)
          ∨ (∀ st, ¬ Written overwrite h es k st) ∧ r.1.find k = h.find k
            ∧ r.2.1.cached k = l.cached k)
        ∧ r.2.1.modcount = l.modcount
        ∧ (r.2.2 = true ↔ ov = true ∨ ∃ k st, Written overwrite h es k st
          ∧ memberIsCacheable h k = true) := by
  induction es with
  | nil =>
      intro h l ov _
      refine ⟨fun k => Or.inr ⟨fun st hw => (nomatch hw.1), rfl, rfl⟩, rfl,
        ⟨Or.inl, fun ho => ho.resolve_right fun ⟨_, _, hw, _⟩ =>
          (nomatch hw.1)⟩⟩
  | cons e es ih =>
      intro h l ov hnd
      rw [List.map_cons, List.nodup_cons] at hnd
      obtain ⟨hnot, hnd⟩ := hnd
      obtain ⟨k₀, st₀⟩ := e
      have hnotmem : ∀ st, (k₀, st) ∉ es := fun st hm =>
        hnot (List.mem_map.mpr ⟨_, hm, rfl⟩)
      unfold mergeLoop
      by_cases hskip : (!overwrite && h.contains k₀) = true
      · -- the key is there and stays
        rw [if_pos hskip]
        obtain ⟨h1, h2, h3⟩ := ih h l ov hnd
        have hiff : ∀ k st, Written overwrite h ((k₀, st₀) :: es) k st
            ↔ Written overwrite h es k st := by
          intro k st
          refine ⟨fun ⟨hm, ho⟩ => ⟨?_, ho⟩, fun ⟨hm, ho⟩ =>
            ⟨List.mem_cons_of_mem _ hm, ho⟩⟩
          rcases List.mem_cons.mp hm with heq | hm
          · exfalso
            rw [Bool.and_eq_true, Bool.not_eq_true'] at hskip
            rcases ho with ho | ho
            · rw [hskip.1] at ho
              cases ho
            · have := hskip.2
              unfold HashTable.contains at this
              rw [← (Prod.mk.inj heq).1, ho] at this
              cases this
          · exact hm
        refine ⟨fun k => ?_, h2, ?_⟩
        · rcases h1 k with ⟨st, hw, hr⟩ | ⟨hn, hr⟩
          · exact Or.inl ⟨st, (hiff k st).mpr hw, hr⟩
          · exact Or.inr ⟨fun st hw => hn st ((hiff k st).mp hw), hr⟩
        · rw [h3]
          simp only [hiff]
      · rw [if_neg hskip]
        obtain ⟨h1, h2, h3⟩ := ih (h.update true k₀ st₀) (l.del k₀)
          (ov || memberIsCacheable h k₀) hnd
        have hw₀ : Written overwrite h ((k₀, st₀) :: es) k₀ st₀ := by
          refine ⟨List.mem_cons_self, ?_⟩
          cases overwrite with
          | true => exact Or.inl rfl
          | false =>
              refine Or.inr ?_
              simpa [HashTable.contains] using hskip
        have hiff : ∀ k st, k ≠ k₀ →
            (Written overwrite h ((k₀, st₀) :: es) k st
              ↔ Written overwrite (h.update true k₀ st₀) es k st) := by
          intro k st hk
          unfold Written
          rw [HashTable.find_update, if_neg hk, List.mem_cons]
          refine ⟨fun ⟨hm, ho⟩ => ⟨hm.resolve_left fun heq =>
            hk (Prod.mk.inj heq).1, ho⟩, fun ⟨hm, ho⟩ => ⟨Or.inr hm, ho⟩⟩
        refine ⟨fun k => ?_, h2, ?_⟩
        · by_cases hk : k = k₀
          · rw [hk]
            rcases h1 k₀ with ⟨st, hw, -⟩ | ⟨-, hr, hl⟩
            · exact absurd hw.1 (hnotmem st)
            · refine Or.inl ⟨st₀, hw₀, ?_, ?_⟩
              · rw [hr, HashTable.find_update_self]
              · rw [hl, Local.cached_del, if_pos rfl]
          · rcases h1 k with ⟨st, hw, hr⟩ | ⟨hn, hr, hl⟩
            · exact Or.inl ⟨st, (hiff k st hk).mpr hw, hr⟩
            · refine Or.inr ⟨fun st hw => hn st ((hiff k st hk).mp hw), ?_, ?_⟩
              · rw [hr, HashTable.find_update, if_neg hk]
              · rw [hl, Local.cached_del, if_neg hk]
        · rw [h3, Bool.or_eq_true]
          have hcache : ∀ k, k ≠ k₀ →
              memberIsCacheable (h.update true k₀ st₀) k
                = memberIsCacheable h k := by
            intro k hk
            unfold memberIsCacheable
            rw [HashTable.find_update, if_neg hk]
          refine ⟨fun ho => ?_, fun ho => ?_⟩
          · rcases ho with (ho | ho) | ⟨k, st, hw, hc⟩
            · exact Or.inl ho
            · exact Or.inr ⟨k₀, st₀, hw₀, ho⟩
            · have hk : k ≠ k₀ := fun hk => hnotmem st (hk ▸ hw.1)
              exact Or.inr ⟨k, st, (hiff k st hk).mpr hw, hcache k hk ▸ hc⟩
          · rcases ho with ho | ⟨k, st, hw, hc⟩
            · exact Or.inl (Or.inl ho)
            · by_cases hk : k = k₀
              · exact Or.inl (Or.inr (hk ▸ hc))
              · exact Or.inr ⟨k, st, (hiff k st hk).mp hw,
                  (hcache k hk).symm ▸ hc⟩

/-- A hard copy has the source's key, and never points to a string. -/
theorem hardCopyAll_mem {w : World} :
    ∀ {es cs : List (Key × Storage)}, w.hardCopyAll es = some cs →
      cs.map Prod.fst = es.map Prod.fst
        ∧ ∀ k st, (k, st) ∈ cs → ∃ st₀, (k, st₀) ∈ es
          ∧ w.hardCopyStorage st₀ = some st := by
  intro es
  induction es with
  | nil =>
      intro cs h
      injection h with h
      rw [← h]
      exact ⟨rfl, fun k st hm => (nomatch hm)⟩
  | cons e es ih =>
      intro cs h
      unfold hardCopyAll at h
      rw [List.mapM_cons] at h
      obtain ⟨c, hc, h⟩ := Option.bind_eq_some_iff.mp h
      obtain ⟨cs', hcs', h⟩ := Option.bind_eq_some_iff.mp h
      obtain ⟨st₁, hst₁, hc⟩ := Option.map_eq_some_iff.mp hc
      obtain ⟨h1, h2⟩ := ih hcs'
      injection h with h
      rw [← h, ← hc]
      refine ⟨?_, fun k st hm => ?_⟩
      · rw [List.map_cons, List.map_cons, h1]
      · rcases List.mem_cons.mp hm with heq | hm
        · obtain ⟨rfl, rfl⟩ := Prod.mk.inj heq
          exact ⟨e.2, List.mem_cons_self, hst₁⟩
        · obtain ⟨st₀, hm₀, hs⟩ := h2 k st hm
          exact ⟨st₀, List.mem_cons_of_mem _ hm₀, hs⟩

/-- The copy of a table has its keys. -/
theorem hardCopyAll_nodup {w : World} {t : HashTable Storage}
    {cs : List (Key × Storage)} (h : w.hardCopyAll t.entries = some cs) :
    (cs.map Prod.fst).Nodup := by
  rw [(hardCopyAll_mem h).1]
  exact t.nodup

/-- The copies are of entries that the source has. -/
theorem hardCopyAll_contains {w : World} {t : HashTable Storage}
    {cs : List (Key × Storage)} (h : w.hardCopyAll t.entries = some cs)
    {k : Key} {st : Storage} (hm : (k, st) ∈ cs) : t.contains k = true := by
  obtain ⟨st₀, hm₀, -⟩ := (hardCopyAll_mem h).2 k st hm
  unfold HashTable.contains
  rw [HashTable.find_eq_some_iff.mpr hm₀]
  rfl

-- ============================================== what each mutator leaves

/-- What taking `e` leaves in the shared and the local table. -/
theorem afterTake_spec {x : Conn} {e : Key × Storage} {p : Store Storage}
    (h : Takes x.o.props e p) (k : Key) :
    (afterTake x e p).2.hash.find k
        = (if k = e.1 then none else x.o.props.hash.find k)
      ∧ (afterTake x e p).1.cached k
        = if k = e.1 then none else x.z.loc.cached k := by
  obtain ⟨-, hp, -⟩ := Store.take_spec h
  unfold afterTake
  rw [bumpIf_hash, bumpIf_cached, hp, Store.find_del, Local.cached_del]
  exact ⟨rfl, rfl⟩

/-- A key after a chunk: taken from both tables, or in both as before. -/
theorem afterChunk_spec (x : Conn) (size : Int) (k : Key) :
    let r := afterChunk x (x.o.props.chunk size).1 (x.o.props.chunk size).2
    r.2.hash.find k
        = (if k ∈ (x.o.props.chunk size).1.map Prod.fst then none
          else x.o.props.hash.find k)
      ∧ r.1.cached k = if k ∈ (x.o.props.chunk size).1.map Prod.fst then none
          else x.z.loc.cached k := by
  obtain ⟨-, hp, -⟩ := Store.chunk_find x.o.props size
  unfold afterChunk
  simp only []
  rw [bumpIf_hash, bumpIf_cached, hp, Local.cached_dels]
  exact ⟨rfl, rfl⟩

/-- A key after a merge: written and no longer cached, or as before. -/
theorem afterMerge_spec (x : Conn) (overwrite : Bool)
    {es : List (Key × Storage)} (hnd : (es.map Prod.fst).Nodup) (k : Key) :
    (∃ st, Written overwrite x.o.props.hash es k st
        ∧ (afterMerge x overwrite es).2.hash.find k = some st
        ∧ (afterMerge x overwrite es).1.cached k = none)
      ∨ (∀ st, ¬ Written overwrite x.o.props.hash es k st)
        ∧ (afterMerge x overwrite es).2.hash.find k = x.o.props.hash.find k
        ∧ (afterMerge x overwrite es).1.cached k = x.z.loc.cached k := by
  obtain ⟨hspec, -, -⟩ := mergeLoop_spec overwrite es x.o.props.hash x.z.loc
    false hnd
  unfold afterMerge
  simp only [bumpIf_hash, bumpIf_cached]
  exact hspec k

/-- The three mutators advance the modification count, and say so to
their own local table, exactly when they replaced or removed a
cacheable storage. -/
structure Bumps (x : Conn) (r : Local × Store Storage) : Prop where
  shared : r.2.modcount = x.o.props.modcount
    ∨ r.2.modcount = x.o.props.modcount + 1
  safe : r.2.modcount = x.o.props.modcount → ∀ k st,
    x.o.props.hash.find k = some st → storageIsCacheable (some st) = true →
    r.2.hash.find k = some st
  inSync : x.z.loc.modcount = x.o.props.modcount →
    r.1.modcount = r.2.modcount
  behind : x.z.loc.modcount ≤ x.o.props.modcount →
    r.1.modcount ≤ r.2.modcount
  outOfSync : x.z.loc.modcount < x.o.props.modcount →
    r.1.modcount < r.2.modcount

/-- A change without a bump has lost no entry that may be cached. -/
theorem bumps_bumpIf {x : Conn} {b : Bool} {l : Local} {p : Store Storage}
    (hl : l.modcount = x.z.loc.modcount)
    (hp : p.modcount = x.o.props.modcount)
    (hsafe : b = false → ∀ k st, x.o.props.hash.find k = some st →
      storageIsCacheable (some st) = true → p.hash.find k = some st) :
    Bumps x (bumpIf b l p) := by
  have hm := bumpIf_modcount b l p
  have hlm := bumpIf_local_modcount b l p
  rw [hl, hp] at hlm
  rw [hp] at hm
  cases b with
  | true =>
      simp only [if_true, true_and] at hm hlm
      refine ⟨Or.inr hm, fun h => ?_, fun h => ?_, fun h => ?_, fun h => ?_⟩
      · omega
      · rw [hm, hlm, if_pos h, h]
      · rw [hm, hlm]
        split <;> omega
      · rw [hm, hlm]
        split <;> omega
  | false =>
      simp only [Bool.false_eq_true, if_false, false_and, Int.add_zero]
        at hm hlm
      refine ⟨Or.inl hm, fun _ k st hk hc => ?_, fun h => ?_, fun h => ?_,
        fun h => ?_⟩
      · rw [bumpIf_hash]
        exact hsafe rfl k st hk hc
      · rw [hm, hlm, h]
      · rw [hm, hlm]
        exact h
      · rw [hm, hlm]
        exact h

/-- Shift and pop count where the entry may be cached. -/
theorem bumps_afterTake {x : Conn} {e : Key × Storage} {p : Store Storage}
    (h : Takes x.o.props e p) : Bumps x (afterTake x e p) := by
  obtain ⟨he, hp, hm⟩ := Store.take_spec h
  refine bumps_bumpIf rfl hm fun hb k st hk hc => ?_
  rw [hp, Store.find_del, if_neg ?_]
  · exact hk
  · intro hke
    rw [hke, he] at hk
    rw [Option.some.inj hk, hc] at hb
    cases hb

/-- A chunk counts where one of its entries may be cached. -/
theorem bumps_afterChunk (x : Conn) (size : Int) :
    Bumps x (afterChunk x (x.o.props.chunk size).1
      (x.o.props.chunk size).2) := by
  obtain ⟨hes, hp, hm⟩ := Store.chunk_find x.o.props size
  refine bumps_bumpIf (Local.modcount_dels _ _) hm fun hb k st hk hc => ?_
  rw [hp, if_neg ?_]
  · exact hk
  · intro hmem
    obtain ⟨e, he, rfl⟩ := List.mem_map.mp hmem
    rw [hes e he] at hk
    rw [List.any_eq_false] at hb
    refine hb e he ?_
    rw [Option.some.inj hk]
    exact hc

/-- A merge counts where it replaces an entry that may be cached. -/
theorem bumps_afterMerge (x : Conn) (overwrite : Bool)
    {es : List (Key × Storage)} (hnd : (es.map Prod.fst).Nodup) :
    Bumps x (afterMerge x overwrite es) := by
  obtain ⟨hspec, hl, hb⟩ := mergeLoop_spec overwrite es x.o.props.hash
    x.z.loc false hnd
  refine bumps_bumpIf hl rfl fun hf k st hk hc => ?_
  rcases hspec k with ⟨st', hw, -⟩ | ⟨-, hfind, -⟩
  · exfalso
    have : memberIsCacheable x.o.props.hash k = true := by
      unfold memberIsCacheable
      rw [hk]
      exact hc
    rw [hb.mpr (Or.inr ⟨k, st', hw, this⟩)] at hf
    cases hf
  · exact hfind.trans hk

/-- A deletion counts where the entry may be cached. -/
theorem bumps_delete (x : Conn) (k₀ : Key) :
    Bumps x (bumpIf (memberIsCacheable x.o.props.hash k₀) x.z.loc
      (x.o.props.delete k₀)) := by
  refine bumps_bumpIf rfl rfl fun hb k st hk hc => ?_
  rw [Store.find_delete, if_neg ?_]
  · exact hk
  · intro hke
    unfold memberIsCacheable at hb
    rw [← hke, hk, hc] at hb
    cases hb

end World

end PmmpThread.Model
