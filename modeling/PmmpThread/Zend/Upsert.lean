/-
What updates do to the entries of a table, in iteration order: a key
that is there keeps its place and gets the new value, a new key goes to
the end. Where the values are only looked at through a function, updates
can be followed through that function (`mapVals_mergeInto`).
-/
import PmmpThread.Zend.Hash

namespace PmmpThread.Zend

variable {V W : Type}

/-- One update of a list of entries. -/
def upsert (l : List (Key × V)) (k : Key) (v : V) : List (Key × V) :=
  if k ∈ l.map Prod.fst then l.map fun e => if e.1 = k then (e.1, v) else e
  else l ++ [(k, v)]

/-- One update; without `overwrite` a key that is there is left alone. -/
def mergeStep (overwrite : Bool) (l : List (Key × V)) (e : Key × V) :
    List (Key × V) :=
  if overwrite = false ∧ e.1 ∈ l.map Prod.fst then l else upsert l e.1 e.2

/-- Updates one after the other. -/
def mergeInto (overwrite : Bool) (l es : List (Key × V)) : List (Key × V) :=
  es.foldl (mergeStep overwrite) l

theorem HashTable.entries_update (compact : Bool) (t : HashTable V) (k : Key)
    (v : V) : (t.update compact k v).entries = upsert t.entries k v := by
  unfold upsert
  split
  case isTrue h => exact entries_update_of_mem h
  case isFalse h => exact entries_update_of_notMem h

/-- The entries as `f` sees their values. -/
def mapVals (f : V → W) (l : List (Key × V)) : List (Key × W) :=
  l.map fun e => (e.1, f e.2)

@[simp] theorem keys_mapVals (f : V → W) (l : List (Key × V)) :
    (mapVals f l).map Prod.fst = l.map Prod.fst := by
  unfold mapVals
  rw [List.map_map]
  rfl

theorem mapVals_upsert (f : V → W) (l : List (Key × V)) (k : Key) (v : V) :
    mapVals f (upsert l k v) = upsert (mapVals f l) k (f v) := by
  unfold upsert
  rw [keys_mapVals]
  split
  · unfold mapVals
    rw [List.map_map, List.map_map]
    refine List.map_congr_left fun e _ => ?_
    simp only [Function.comp_apply]
    split <;> rfl
  · unfold mapVals
    rw [List.map_append]
    rfl

/-- What is at the key before an update does not matter. -/
theorem upsert_congr {f g : V → W} {l : List (Key × V)} {k : Key}
    (hsame : ∀ e ∈ l, e.1 ≠ k → f e.2 = g e.2) (v : W) :
    upsert (mapVals f l) k v = upsert (mapVals g l) k v := by
  unfold upsert
  rw [keys_mapVals, keys_mapVals]
  unfold mapVals
  split
  case isTrue =>
    rw [List.map_map, List.map_map]
    refine List.map_congr_left fun e he => ?_
    by_cases hk : e.1 = k
    · simp only [Function.comp_apply, hk, if_true]
    · simp only [Function.comp_apply, hk, if_false, hsame e he hk]
  case isFalse hk =>
    congr 1
    refine List.map_congr_left fun e he => ?_
    rw [hsame e he fun heq => hk (heq ▸ List.mem_map_of_mem he)]

theorem mapVals_mergeStep (f : V → W) (overwrite : Bool)
    (l : List (Key × V)) (e : Key × V) :
    mapVals f (mergeStep overwrite l e)
      = mergeStep overwrite (mapVals f l) (e.1, f e.2) := by
  unfold mergeStep
  rw [keys_mapVals]
  split
  · rfl
  · exact mapVals_upsert f l e.1 e.2

theorem mapVals_mergeInto (f : V → W) (overwrite : Bool)
    (es : List (Key × V)) : ∀ l : List (Key × V),
      mapVals f (mergeInto overwrite l es)
        = mergeInto overwrite (mapVals f l) (mapVals f es) := by
  induction es with
  | nil => exact fun _ => rfl
  | cons e es ih =>
      intro l
      show mapVals f (mergeInto overwrite (mergeStep overwrite l e) es) = _
      rw [ih, mapVals_mergeStep]
      rfl

end PmmpThread.Zend
