/-
Zend's HashTable, as far as code outside the engine can see it: an
array of slots in insertion order, a deleted entry leaving a tombstone
(an `IS_UNDEF` bucket), positions being slot numbers.

# What is kept and what is not

- `slots` is `arData[0 .. nNumUsed)`; the collision chains and hash
  values are absent, since no caller can tell them apart from a search
  by key. Two facts the engine never breaks are fields of the
  structure: live keys are distinct, and the last used slot is live
  (`_zend_hash_del_el_ex` lowers `nNumUsed` past trailing tombstones).
- Inserting a new key into a full table goes through
  `zend_hash_do_resize`. Whether that compacts the live slots to the
  front is the `compact` argument: a mixed table always compacts
  (`zend_hash_rehash`), a packed one grows in place.
- `nextFree` is `nNextFreeElement`, which starts at `ZEND_LONG_MIN`
  and saturates at `ZEND_LONG_MAX`.

# How it is used

Content questions go through `find` and `entries`
(`entries_update`, `entries_filter` and the `find_*` family); slot
numbers matter only to code that keeps a position across operations,
and that code uses the cursor lemmas at the end of the file.
-/
import Mathlib.Data.List.ReduceOption
import Mathlib.Data.List.DropRight
import Mathlib.Data.List.Nodup
import Mathlib.Tactic.Common

namespace PmmpThread.Zend

/-- A bucket's key: `h` of an integer key, or the bytes of a string key. -/
inductive Key where
  | long (h : Int)
  | str (bytes : List UInt8)
  deriving DecidableEq, Repr

/-- `ZEND_LONG_MIN` on a 64-bit build. -/
def longMin : Int := -9223372036854775808

/-- `ZEND_LONG_MAX` on a 64-bit build. -/
def longMax : Int := 9223372036854775807

variable {V W : Type}

-- ====================================================== slot arrays

/-- Drop the tombstones at the end of a slot array. -/
def trim (l : List (Option (Key × V))) : List (Option (Key × V)) :=
  l.rdropWhile Option.isNone

theorem trim_getLast? (l : List (Option (Key × V))) :
    (trim l).getLast? ≠ some none := by
  intro h
  have hne : trim l ≠ [] := by
    intro h0
    rw [h0] at h
    cases h
  have hlast := List.rdropWhile_last_not Option.isNone l hne
  rw [List.getLast?_eq_some_getLast hne] at h
  injection h with h
  exact hlast (by rw [show (List.rdropWhile Option.isNone l).getLast hne
    = none from h]; rfl)

theorem trim_eq_self {l : List (Option (Key × V))}
    (h : l.getLast? ≠ some none) : trim l = l := by
  unfold trim
  rw [List.rdropWhile_eq_self_iff]
  intro hne hnone
  apply h
  rw [List.getLast?_eq_some_getLast hne]
  rw [Option.isNone_iff_eq_none] at hnone
  rw [hnone]

@[simp] theorem reduceOption_trim (l : List (Option (Key × V))) :
    (trim l).reduceOption = l.reduceOption := by
  induction l using List.reverseRecOn with
  | nil => rfl
  | append_singleton l x ih =>
      unfold trim at ih ⊢
      cases x with
      | none =>
          rw [List.rdropWhile_concat_pos _ _ _ rfl, ih]
          simp [List.reduceOption_append]
      | some e => rw [List.rdropWhile_concat_neg _ _ _ (by simp)]

theorem reduceOption_map_filter (p : Key × V → Bool)
    (l : List (Option (Key × V))) :
    (l.map (Option.filter p)).reduceOption = l.reduceOption.filter p := by
  induction l with
  | nil => rfl
  | cons x l ih =>
      cases x with
      | none => simpa using ih
      | some e =>
          cases hp : p e with
          | true => simp [Option.filter, hp, ih]
          | false => simp [Option.filter, hp, ih]

-- ======================================================== the table

/-- `HashTable` (zend_types.h): the used slots, `nTableSize` and
`nNextFreeElement`, with the two facts the engine keeps. -/
structure HashTable (V : Type) where
  slots : List (Option (Key × V))
  tableSize : Nat
  nextFree : Int
  nodup : (slots.reduceOption.map Prod.fst).Nodup
  trimmed : slots.getLast? ≠ some none

namespace HashTable

/-- `zend_hash_init`. -/
def init (size : Nat) : HashTable V where
  slots := []
  tableSize := size
  nextFree := longMin
  nodup := List.nodup_nil
  trimmed := by simp

/-- The live entries in table order. -/
def entries (t : HashTable V) : List (Key × V) := t.slots.reduceOption

/-- `nNumUsed`. -/
def numUsed (t : HashTable V) : Nat := t.slots.length

/-- `zend_hash_num_elements`. -/
def numElements (t : HashTable V) : Nat := t.entries.length

/-- `zend_hash_find` and `zend_hash_index_find`. -/
def find (t : HashTable V) (k : Key) : Option V :=
  (t.entries.find? fun e => e.1 == k).map Prod.snd

/-- `zend_hash_exists` and `zend_hash_index_exists`. -/
def contains (t : HashTable V) (k : Key) : Bool := (t.find k).isSome

/-- The key `zend_hash_next_free_element` proposes, with the caller's
`ZEND_LONG_MIN` reading of a table that never held an integer key. -/
def nextKey (t : HashTable V) : Key :=
  .long (if t.nextFree = longMin then 0 else t.nextFree)

/-- `nNextFreeElement` after a new key went in. -/
def bumpFree (free : Int) : Key → Int
  | .long h => if free ≤ h then (if h < longMax then h + 1 else longMax)
      else free
  | .str _ => free

theorem find_eq_some_iff {t : HashTable V} {k : Key} {v : V} :
    t.find k = some v ↔ (k, v) ∈ t.entries := by
  have hnd : (t.entries.map Prod.fst).Nodup := t.nodup
  unfold find
  generalize t.entries = l at hnd
  induction l with
  | nil => simp
  | cons e l ih =>
      obtain ⟨k', v'⟩ := e
      simp only [List.map_cons, List.nodup_cons] at hnd
      by_cases hk : k' = k
      · subst hk
        have hnot : ∀ u, (k', u) ∉ l := fun u hu =>
          hnd.1 (List.mem_map.mpr ⟨_, hu, rfl⟩)
        simp only [List.find?_cons, beq_self_eq_true, Option.map_some,
          Option.some.injEq, List.mem_cons, Prod.mk.injEq, true_and]
        exact ⟨fun h => Or.inl h.symm,
          fun h => h.elim (fun h => h.symm) (fun h => absurd h (hnot v))⟩
      · rw [List.find?_cons_of_neg (by simpa using hk)]
        exact (ih hnd.2).trans (by simp [List.mem_cons, Ne.symm hk])

theorem find_eq_none_iff {t : HashTable V} {k : Key} :
    t.find k = none ↔ k ∉ t.entries.map Prod.fst := by
  constructor
  · intro h hk
    obtain ⟨⟨k', v⟩, hv, rfl⟩ := List.mem_map.mp hk
    rw [find_eq_some_iff.mpr hv] at h
    cases h
  · intro h
    cases hf : t.find k with
    | none => rfl
    | some v =>
        exact absurd (List.mem_map.mpr ⟨_, find_eq_some_iff.mp hf, rfl⟩) h

theorem contains_iff {t : HashTable V} {k : Key} :
    t.contains k = true ↔ k ∈ t.entries.map Prod.fst := by
  unfold contains
  rw [Option.isSome_iff_ne_none, ne_eq, find_eq_none_iff, Decidable.not_not]

@[simp] theorem find_init (size : Nat) (k : Key) :
    (init size : HashTable V).find k = none := rfl

@[simp] theorem entries_init (size : Nat) :
    (init size : HashTable V).entries = [] := rfl

-- ========================================================= deletion

/-- Delete every entry that fails `p`: what a `ZEND_HASH_FOREACH` that
deletes as it goes leaves behind. -/
def filter (p : Key → V → Bool) (t : HashTable V) : HashTable V where
  slots := trim (t.slots.map (Option.filter fun e => p e.1 e.2))
  tableSize := t.tableSize
  nextFree := t.nextFree
  nodup := by
    rw [reduceOption_trim, reduceOption_map_filter]
    exact t.nodup.sublist (List.filter_sublist.map _)
  trimmed := trim_getLast? _

/-- `zend_hash_del` and `zend_hash_index_del`. -/
def del (t : HashTable V) (k : Key) : HashTable V :=
  t.filter fun k' _ => k' != k

@[simp] theorem entries_filter (p : Key → V → Bool) (t : HashTable V) :
    (t.filter p).entries = t.entries.filter fun e => p e.1 e.2 := by
  unfold entries filter
  rw [reduceOption_trim, reduceOption_map_filter]

theorem find_filter (p : Key → V → Bool) (t : HashTable V) (k : Key) :
    (t.filter p).find k = (t.find k).filter (p k) := by
  cases hf : t.find k with
  | none =>
      rw [find_eq_none_iff] at hf
      rw [Option.filter_none, find_eq_none_iff, entries_filter]
      exact fun h => hf ((List.filter_sublist.map _).subset h)
  | some v =>
      have hmem := find_eq_some_iff.mp hf
      cases hp : p k v with
      | true =>
          rw [Option.filter_some_pos hp, find_eq_some_iff, entries_filter]
          exact List.mem_filter.mpr ⟨hmem, hp⟩
      | false =>
          rw [Option.filter_some_neg (by simp [hp]), find_eq_none_iff,
            entries_filter]
          intro h
          obtain ⟨⟨k', v'⟩, hv', rfl⟩ := List.mem_map.mp h
          obtain ⟨hv', hp'⟩ := List.mem_filter.mp hv'
          rw [find_eq_some_iff.mpr hv'] at hf
          injection hf with hf
          subst hf
          simp [hp] at hp'

@[simp] theorem find_del_self (t : HashTable V) (k : Key) :
    (t.del k).find k = none := by
  unfold del
  rw [find_filter]
  cases t.find k <;> simp

theorem find_del_ne (t : HashTable V) {k k' : Key} (h : k' ≠ k) :
    (t.del k).find k' = t.find k' := by
  unfold del
  rw [find_filter]
  cases t.find k' <;> simp [h]

-- ======================================================== insertion

/-- `zend_hash_rehash`: the live slots moved to the front. -/
def rehash (t : HashTable V) : HashTable V where
  slots := t.entries.map some
  tableSize := t.tableSize
  nextFree := t.nextFree
  nodup := by
    have h : (t.entries.map some).reduceOption = t.entries := by
      induction t.entries with
      | nil => rfl
      | cons e l ih => simpa using ih
    rw [h]
    exact t.nodup
  trimmed := by
    rw [List.getLast?_map]
    cases t.entries.getLast? <;> simp

@[simp] theorem entries_rehash (t : HashTable V) :
    t.rehash.entries = t.entries := by
  show (t.entries.map some).reduceOption = t.entries
  induction t.entries with
  | nil => rfl
  | cons e l ih => simpa using ih

/-- Room for one more bucket: nothing in a table that has some,
otherwise `zend_hash_do_resize` (`compact`), which rehashes in place
when enough slots are tombstones and doubles the table when not, or
the in-place doubling of a packed table. -/
def roomFor (compact : Bool) (t : HashTable V) : HashTable V :=
  if t.numUsed < t.tableSize then t
  else if compact then
    if t.numElements + t.numElements / 32 < t.numUsed then t.rehash
    else { t.rehash with tableSize := 2 * t.tableSize }
  else { t with tableSize := 2 * t.tableSize }

@[simp] theorem entries_roomFor (compact : Bool) (t : HashTable V) :
    (t.roomFor compact).entries = t.entries := by
  unfold roomFor
  split
  · rfl
  · split
    · split
      · exact t.entries_rehash
      · exact t.entries_rehash
    · rfl

/-- Overwrite the value of key `k` in its own slot. -/
def replace (t : HashTable V) (k : Key) (v : V) : HashTable V where
  slots := t.slots.map
    (Option.map fun e => if e.1 = k then (e.1, v) else e)
  tableSize := t.tableSize
  nextFree := t.nextFree
  nodup := by
    rw [List.reduceOption_map, List.map_map]
    have h : (Prod.fst ∘ fun e : Key × V => if e.1 = k then (e.1, v) else e)
        = Prod.fst := by
      funext e
      simp only [Function.comp]
      split <;> rfl
    rw [h]
    exact t.nodup
  trimmed := by
    rw [List.getLast?_map]
    have := t.trimmed
    cases hl : t.slots.getLast? with
    | none => simp
    | some o =>
        cases o with
        | none => exact absurd hl this
        | some e => simp

theorem entries_replace (t : HashTable V) (k : Key) (v : V) :
    (t.replace k v).entries
      = t.entries.map fun e => if e.1 = k then (e.1, v) else e := by
  unfold entries replace
  rw [List.reduceOption_map]

/-- Append a bucket for a key the table does not hold. -/
def append (t : HashTable V) (k : Key) (v : V)
    (h : k ∉ t.entries.map Prod.fst) : HashTable V where
  slots := t.slots ++ [some (k, v)]
  tableSize := t.tableSize
  nextFree := bumpFree t.nextFree k
  nodup := by
    have hl : (t.slots ++ [some (k, v)]).reduceOption
        = t.slots.reduceOption ++ [(k, v)] := by
      rw [List.reduceOption_append]
      rfl
    rw [hl, List.map_append, List.map_cons, List.map_nil,
      List.nodup_append']
    refine ⟨t.nodup, List.nodup_singleton _, ?_⟩
    rw [List.disjoint_singleton]
    exact h
  trimmed := by simp

theorem entries_append (t : HashTable V) (k : Key) (v : V)
    (h : k ∉ t.entries.map Prod.fst) :
    (t.append k v h).entries = t.entries ++ [(k, v)] := by
  show (t.slots ++ [some (k, v)]).reduceOption = _
  rw [List.reduceOption_append]
  rfl

/-- `zend_hash_update` and `zend_hash_index_update`. -/
def update (compact : Bool) (t : HashTable V) (k : Key) (v : V) :
    HashTable V :=
  if h : k ∈ t.entries.map Prod.fst then t.replace k v
  else (t.roomFor compact).append k v (by rwa [entries_roomFor])

theorem update_of_mem {compact : Bool} {t : HashTable V} {k : Key} {v : V}
    (h : k ∈ t.entries.map Prod.fst) :
    t.update compact k v = t.replace k v := dif_pos h

theorem entries_update_of_mem {compact : Bool} {t : HashTable V} {k : Key}
    {v : V} (h : k ∈ t.entries.map Prod.fst) :
    (t.update compact k v).entries
      = t.entries.map fun e => if e.1 = k then (e.1, v) else e := by
  rw [update_of_mem h, entries_replace]

theorem entries_update_of_notMem {compact : Bool} {t : HashTable V}
    {k : Key} {v : V} (h : k ∉ t.entries.map Prod.fst) :
    (t.update compact k v).entries = t.entries ++ [(k, v)] := by
  unfold update
  rw [dif_neg h, entries_append, entries_roomFor]

/-- What an update leaves in the table: the new entry, and every entry
under another key. -/
theorem mem_entries_update {compact : Bool} {t : HashTable V} {k : Key}
    {v : V} {e : Key × V} :
    e ∈ (t.update compact k v).entries
      ↔ e = (k, v) ∨ (e ∈ t.entries ∧ e.1 ≠ k) := by
  by_cases h : k ∈ t.entries.map Prod.fst
  · rw [entries_update_of_mem h, List.mem_map]
    constructor
    · rintro ⟨e', he', rfl⟩
      by_cases hk : e'.1 = k
      · exact Or.inl (by rw [if_pos hk, hk])
      · exact Or.inr (by rw [if_neg hk]; exact ⟨he', hk⟩)
    · rintro (rfl | ⟨he, hk⟩)
      · obtain ⟨e', he', hk⟩ := List.mem_map.mp h
        exact ⟨e', he', by rw [if_pos hk, hk]⟩
      · exact ⟨e, he, by rw [if_neg hk]⟩
  · rw [entries_update_of_notMem h, List.mem_append, List.mem_singleton]
    constructor
    · rintro (he | rfl)
      · exact Or.inr ⟨he, fun hk => h (List.mem_map.mpr ⟨_, he, hk⟩)⟩
      · exact Or.inl rfl
    · rintro (rfl | ⟨he, -⟩)
      · exact Or.inr rfl
      · exact Or.inl he

@[simp] theorem find_update_self (compact : Bool) (t : HashTable V)
    (k : Key) (v : V) : (t.update compact k v).find k = some v :=
  find_eq_some_iff.mpr (mem_entries_update.mpr (Or.inl rfl))

theorem find_update_ne (compact : Bool) (t : HashTable V) {k k' : Key}
    (v : V) (h : k' ≠ k) : (t.update compact k v).find k' = t.find k' := by
  cases hf : t.find k' with
  | some u =>
      exact find_eq_some_iff.mpr
        (mem_entries_update.mpr (Or.inr ⟨find_eq_some_iff.mp hf, h⟩))
  | none =>
      cases hu : (t.update compact k v).find k' with
      | none => rfl
      | some u =>
          rcases mem_entries_update.mp (find_eq_some_iff.mp hu) with he | he
          · injection he with hk
            exact absurd hk h
          · rw [find_eq_some_iff.mpr he.1] at hf
            cases hf

theorem find_update (compact : Bool) (t : HashTable V) (k k' : Key)
    (v : V) : (t.update compact k v).find k'
      = if k' = k then some v else t.find k' := by
  split
  · next h => rw [h, find_update_self]
  · next h => exact find_update_ne compact t v h

-- ==================================================== value rewriting

/-- Rewrite every value in its own slot: a foreach that assigns through
the bucket pointer. -/
def mapVal (f : V → W) (t : HashTable V) : HashTable W where
  slots := t.slots.map (Option.map fun e => (e.1, f e.2))
  tableSize := t.tableSize
  nextFree := t.nextFree
  nodup := by
    rw [List.reduceOption_map, List.map_map]
    exact t.nodup
  trimmed := by
    rw [List.getLast?_map]
    have := t.trimmed
    cases hl : t.slots.getLast? with
    | none => simp
    | some o =>
        cases o with
        | none => exact absurd hl this
        | some e => simp

theorem entries_mapVal (f : V → W) (t : HashTable V) :
    (t.mapVal f).entries = t.entries.map fun e => (e.1, f e.2) := by
  unfold entries mapVal
  rw [List.reduceOption_map]

@[simp] theorem find_mapVal (f : V → W) (t : HashTable V) (k : Key) :
    (t.mapVal f).find k = (t.find k).map f := by
  unfold find
  rw [entries_mapVal, List.find?_map, Option.map_map, Option.map_map]
  rfl

-- ============================================================ cursors

/-- `_zend_hash_get_valid_pos`: the first position from `pos` on that
is not a tombstone. -/
def getValidPos (t : HashTable V) (pos : Nat) : Nat :=
  pos + ((t.slots.drop pos).takeWhile Option.isNone).length

/-- `zend_hash_get_current_data_ex` with
`zend_hash_get_current_key_zval_ex`: the entry a position denotes. -/
def getCurrent (t : HashTable V) (pos : Nat) : Option (Key × V) :=
  (t.slots[t.getValidPos pos]?).join

/-- `zend_hash_move_forward_ex`; `none` is its `FAILURE`. -/
def moveForward (t : HashTable V) (pos : Nat) : Option Nat :=
  let idx := t.getValidPos pos
  if idx < t.numUsed then some (t.getValidPos (idx + 1)) else none

/-- The last live slot below `n`. -/
def prevLive (t : HashTable V) : Nat → Option Nat
  | 0 => none
  | n + 1 => if (t.slots[n]?).join.isSome then some n else t.prevLive n

/-- `zend_hash_move_backwards_ex`; `none` is its `FAILURE`. -/
def moveBackwards (t : HashTable V) (pos : Nat) : Option Nat :=
  if pos < t.numUsed then some ((t.prevLive pos).getD t.numUsed) else none

/-- `zend_hash_internal_pointer_reset_ex`. -/
def internalPointerReset (t : HashTable V) : Nat := t.getValidPos 0

/-- `zend_hash_internal_pointer_end_ex`. -/
def internalPointerEnd (t : HashTable V) : Nat :=
  (t.prevLive t.numUsed).getD t.numUsed

/-- `zend_hash_has_more_elements_ex`. -/
def hasMoreElements (t : HashTable V) (pos : Nat) : Bool :=
  (t.getCurrent pos).isSome

-- ================================================== where entries sit

/-- Trimming stops at a live slot. -/
theorem trim_append_some (l m : List (Option (Key × V))) (e : Key × V) :
    trim (l ++ some e :: m) = l ++ some e :: trim m := by
  induction m using List.reverseRecOn with
  | nil =>
      unfold trim
      rw [List.rdropWhile_concat_neg _ _ _ (by simp), List.rdropWhile_nil]
  | append_singleton m x ih =>
      cases x with
      | some f =>
          have h1 : trim (m ++ [some f]) = m ++ [some f] :=
            List.rdropWhile_concat_neg _ _ _ (by simp)
          rw [h1, ← List.cons_append, ← List.append_assoc]
          exact List.rdropWhile_concat_neg _ _ _ (by simp)
      | none =>
          have h1 : trim (m ++ [none]) = trim m :=
            List.rdropWhile_concat_pos _ _ _ rfl
          rw [h1, ← ih, ← List.cons_append, ← List.append_assoc]
          exact List.rdropWhile_concat_pos _ _ _ rfl

/-- The first live entry sits behind a run of tombstones. -/
theorem slots_eq_first {l : List (Option (Key × V))} {e : Key × V}
    {rest : List (Key × V)} (h : l.reduceOption = e :: rest) :
    ∃ i tail, l = List.replicate i none ++ some e :: tail
      ∧ tail.reduceOption = rest := by
  induction l with
  | nil => cases h
  | cons x l ih =>
      cases x with
      | none =>
          obtain ⟨i, tail, hl, ht⟩ := ih (by simpa using h)
          exact ⟨i + 1, tail, by rw [hl]; rfl, ht⟩
      | some f =>
          rw [List.reduceOption_cons_of_some] at h
          injection h with hf ht
          exact ⟨0, l, by rw [hf]; rfl, ht⟩

/-- The last used slot of a non-empty table is its last entry. -/
theorem slots_eq_last {t : HashTable V} (h : t.slots ≠ []) :
    ∃ l e, t.slots = l ++ [some e] := by
  obtain ⟨l, x, hx⟩ := (List.eq_nil_or_concat' t.slots).resolve_left h
  cases x with
  | some e => exact ⟨l, e, hx⟩
  | none => exact absurd (by rw [hx, List.getLast?_concat]) t.trimmed

theorem slots_eq_nil_iff {t : HashTable V} :
    t.slots = [] ↔ t.entries = [] := by
  constructor
  · intro h
    unfold entries
    rw [h]
    rfl
  · intro h
    by_contra hne
    obtain ⟨l, e, hl⟩ := slots_eq_last hne
    unfold entries at h
    rw [hl, List.reduceOption_append] at h
    simp at h

/-- Deleting a key whose entry is not in `l` leaves `l` as it is. -/
theorem map_filter_of_notMem {l : List (Option (Key × V))} {k : Key}
    (h : k ∉ l.reduceOption.map Prod.fst) :
    l.map (Option.filter fun e => e.1 != k) = l := by
  induction l with
  | nil => rfl
  | cons x l ih =>
      cases x with
      | none => rw [List.map_cons, ih (by simpa using h)]; rfl
      | some e =>
          simp only [List.reduceOption_cons_of_some, List.map_cons,
            List.mem_cons, not_or] at h
          rw [List.map_cons, ih h.2]
          simp [Option.filter, Ne.symm h.1]

theorem map_filter_replicate_none (i : Nat) (p : Key × V → Bool) :
    (List.replicate i (none : Option (Key × V))).map (Option.filter p)
      = List.replicate i none := by
  rw [List.map_replicate]
  rfl

theorem nodup_head {t : HashTable V} {e : Key × V} {rest : List (Key × V)}
    (h : t.entries = e :: rest) : e.1 ∉ rest.map Prod.fst := by
  have := t.nodup
  rw [show t.slots.reduceOption = e :: rest from h, List.map_cons,
    List.nodup_cons] at this
  exact this.1

/-- Deleting the first of several entries turns its slot into a
tombstone and moves nothing. -/
theorem slots_del_first {t : HashTable V} {e : Key × V}
    {rest : List (Key × V)} (h : t.entries = e :: rest) (hr : rest ≠ []) :
    ∃ i tail, t.slots = List.replicate i none ++ some e :: tail
      ∧ (t.del e.1).slots = List.replicate (i + 1) none ++ tail
      ∧ tail.reduceOption = rest := by
  obtain ⟨i, tail, hs, ht⟩ := slots_eq_first h
  refine ⟨i, tail, hs, ?_, ht⟩
  have hk : e.1 ∉ tail.reduceOption.map Prod.fst := by
    rw [ht]
    exact nodup_head h
  have htail : tail ≠ [] := by
    rintro rfl
    exact hr ht.symm
  show trim (t.slots.map (Option.filter fun e' => e'.1 != e.1)) = _
  rw [hs, List.map_append, map_filter_replicate_none, List.map_cons,
    map_filter_of_notMem hk]
  have hnone : Option.filter (fun e' : Key × V => e'.1 != e.1) (some e)
      = none := by simp [Option.filter]
  rw [hnone, List.replicate_succ', List.append_assoc, List.singleton_append]
  refine trim_eq_self ?_
  have hlast := t.trimmed
  rw [hs] at hlast
  rw [List.getLast?_append, List.getLast?_cons] at hlast ⊢
  rw [List.getLast?_eq_some_getLast htail] at hlast ⊢
  simpa using hlast

theorem entries_del_first {t : HashTable V} {e : Key × V}
    {rest : List (Key × V)} (h : t.entries = e :: rest) :
    (t.del e.1).entries = rest := by
  unfold del
  rw [entries_filter, h, List.filter_cons_of_neg (by simp)]
  refine List.filter_eq_self.mpr fun e' he' => ?_
  have hne : e'.1 ≠ e.1 := fun hk =>
    nodup_head h (List.mem_map.mpr ⟨e', he', hk⟩)
  simpa using hne

theorem entries_del_last {t : HashTable V} {e : Key × V}
    {init : List (Key × V)} (h : t.entries = init ++ [e]) :
    (t.del e.1).entries = init := by
  have hnd : ((init ++ [e]).map Prod.fst).Nodup := by
    rw [← h]
    exact t.nodup
  rw [List.map_append, List.map_cons, List.map_nil, List.nodup_append'] at hnd
  have hk : e.1 ∉ init.map Prod.fst :=
    List.disjoint_singleton.mp hnd.2.2
  unfold del
  rw [entries_filter, h, List.filter_append, List.filter_cons_of_neg (by simp),
    List.filter_nil, List.append_nil]
  refine List.filter_eq_self.mpr fun e' he' => ?_
  have hne : e'.1 ≠ e.1 := fun h' => hk (List.mem_map.mpr ⟨e', he', h'⟩)
  simpa using hne

/-- Deleting the last entry lowers `nNumUsed` to the entry before it. -/
theorem slots_del_last {t : HashTable V} {l : List (Option (Key × V))}
    {e : Key × V} (h : t.slots = l ++ [some e]) :
    (t.del e.1).slots = trim l := by
  have hent : t.entries = l.reduceOption ++ [e] := by
    unfold entries
    rw [h, List.reduceOption_append]
    rfl
  have hnd : ((l.reduceOption ++ [e]).map Prod.fst).Nodup := by
    rw [← hent]
    exact t.nodup
  rw [List.map_append, List.map_cons, List.map_nil, List.nodup_append'] at hnd
  have hk : e.1 ∉ l.reduceOption.map Prod.fst :=
    List.disjoint_singleton.mp hnd.2.2
  show trim (t.slots.map (Option.filter fun e' => e'.1 != e.1)) = _
  rw [h, List.map_append, map_filter_of_notMem hk]
  have hnone : [some e].map (Option.filter fun e' : Key × V => e'.1 != e.1)
      = [none] := by simp [Option.filter]
  rw [hnone]
  exact List.rdropWhile_concat_pos _ _ _ rfl

-- ======================================================= cursor facts

theorem le_getValidPos (t : HashTable V) (pos : Nat) :
    pos ≤ t.getValidPos pos := Nat.le_add_right ..

theorem getValidPos_of_le {t : HashTable V} {pos : Nat}
    (h : t.numUsed ≤ pos) : t.getValidPos pos = pos := by
  unfold getValidPos
  rw [List.drop_eq_nil_of_le h]
  rfl

theorem getCurrent_of_le {t : HashTable V} {pos : Nat}
    (h : t.numUsed ≤ pos) : t.getCurrent pos = none := by
  unfold getCurrent
  rw [getValidPos_of_le h, List.getElem?_eq_none h]
  rfl

/-- A position in front of a live slot, with tombstones between. -/
theorem getValidPos_of_append {t : HashTable V}
    {l m : List (Option (Key × V))} {e : Key × V} {n : Nat}
    (h : t.slots = l ++ (List.replicate n none ++ some e :: m)) :
    t.getValidPos l.length = l.length + n
      ∧ t.getCurrent l.length = some e := by
  have hpos : t.getValidPos l.length = l.length + n := by
    unfold getValidPos
    rw [h, List.drop_left, List.takeWhile_append_of_pos (by
      intro x hx
      rw [List.eq_of_mem_replicate hx]
      rfl)]
    simp
  refine ⟨hpos, ?_⟩
  unfold getCurrent
  rw [hpos, h, List.getElem?_append_right (by omega),
    List.getElem?_append_right (by simp)]
  simp

/-- The slots from a position on, without the tombstones in front. -/
theorem drop_getValidPos (t : HashTable V) (pos : Nat) :
    t.slots.drop (t.getValidPos pos)
      = (t.slots.drop pos).dropWhile Option.isNone := by
  unfold getValidPos
  rw [← List.drop_drop]
  generalize t.slots.drop pos = l
  induction l with
  | nil => rfl
  | cons x l ih =>
      cases x with
      | none => simpa using ih
      | some e => rfl

/-- A position denotes the first live slot from it on. -/
theorem getCurrent_eq_head (t : HashTable V) (pos : Nat) :
    t.getCurrent pos = (t.slots.drop pos).reduceOption.head? := by
  unfold getCurrent
  rw [← List.head?_drop, drop_getValidPos]
  generalize t.slots.drop pos = l
  induction l with
  | nil => rfl
  | cons x l ih =>
      cases x with
      | none => simpa using ih
      | some e => simp

theorem reduceOption_dropWhile (l : List (Option (Key × V))) :
    (l.dropWhile Option.isNone).reduceOption = l.reduceOption := by
  induction l with
  | nil => rfl
  | cons x l ih =>
      cases x with
      | none => simpa using ih
      | some e => simp

theorem dropWhile_of_reduceOption {l : List (Option (Key × V))}
    {e : Key × V} {rest : List (Key × V)} (h : l.reduceOption = e :: rest) :
    ∃ m, l.dropWhile Option.isNone = some e :: m
      ∧ m.reduceOption = rest := by
  induction l with
  | nil => cases h
  | cons x l ih =>
      cases x with
      | none => simpa using ih (by simpa using h)
      | some e' =>
          simp only [List.reduceOption_cons_of_some, List.cons.injEq] at h
          obtain ⟨rfl, rfl⟩ := h
          exact ⟨l, rfl, rfl⟩

/-- What is left of the table after a step forward. -/
theorem moveForward_of_reduceOption {t : HashTable V} {pos : Nat}
    {e : Key × V} {rest : List (Key × V)}
    (h : (t.slots.drop pos).reduceOption = e :: rest) :
    ∃ q, t.moveForward pos = some q ∧ pos < q
      ∧ (t.slots.drop q).reduceOption = rest := by
  obtain ⟨m, hm, hrest⟩ := dropWhile_of_reduceOption h
  rw [← drop_getValidPos] at hm
  have hlt : t.getValidPos pos < t.numUsed := by
    by_contra hge
    rw [List.drop_eq_nil_of_le (by unfold numUsed at hge; omega)] at hm
    cases hm
  have htail : t.slots.drop (t.getValidPos pos + 1) = m := by
    rw [← List.drop_drop, hm]
    rfl
  refine ⟨t.getValidPos (t.getValidPos pos + 1), ?_, ?_, ?_⟩
  · unfold moveForward
    rw [if_pos hlt]
  · have h₁ := t.le_getValidPos pos
    have h₂ := t.le_getValidPos (t.getValidPos pos + 1)
    omega
  · rw [drop_getValidPos, reduceOption_dropWhile, htail, hrest]

/-- Reading position 0 finds the first entry. -/
theorem getCurrent_zero (t : HashTable V) :
    t.getCurrent 0 = t.entries.head? := by
  cases he : t.entries with
  | nil =>
      rw [getCurrent_of_le]
      · rfl
      · rw [numUsed, slots_eq_nil_iff.mpr he]
        rfl
  | cons e rest =>
      obtain ⟨i, tail, hs, -⟩ := slots_eq_first he
      exact (getValidPos_of_append (l := []) hs).2

theorem getCurrent_getValidPos_zero (t : HashTable V) :
    t.getCurrent (t.getValidPos 0) = t.entries.head? := by
  cases he : t.entries with
  | nil =>
      refine getCurrent_of_le ?_
      rw [numUsed, slots_eq_nil_iff.mpr he]
      exact Nat.zero_le _
  | cons e rest =>
      obtain ⟨i, tail, hs, -⟩ := slots_eq_first he
      have hpos := (getValidPos_of_append (l := []) hs).1
      rw [List.length_nil, Nat.zero_add] at hpos
      have hcur := (getValidPos_of_append (n := 0)
        (l := List.replicate i none) (by simpa using hs)).2
      rw [List.length_replicate] at hcur
      rw [hpos, hcur]
      rfl

/-- Moving forward from the first of several entries, then deleting
it, leaves the cursor on the first entry that remains. -/
theorem moveForward_first {t : HashTable V} {e : Key × V}
    {rest : List (Key × V)} (h : t.entries = e :: rest) (hr : rest ≠ []) :
    t.moveForward (t.getValidPos 0) = some ((t.del e.1).getValidPos 0)
      ∧ (t.del e.1).numUsed = t.numUsed := by
  obtain ⟨i, tail, hs, hd, ht⟩ := slots_del_first h hr
  have hpos := (getValidPos_of_append (l := []) hs).1
  rw [List.length_nil, Nat.zero_add] at hpos
  have hself : t.getValidPos i = i := by
    have := (getValidPos_of_append (n := 0)
      (l := List.replicate i none) (by simpa using hs)).1
    simpa using this
  have hlt : i < t.numUsed := by
    rw [numUsed, hs]
    simp
  constructor
  · unfold moveForward
    rw [hpos, hself, if_pos hlt]
    congr 1
    unfold getValidPos
    rw [hs, hd, List.drop_zero, List.takeWhile_append_of_pos (by
      intro x hx
      rw [List.eq_of_mem_replicate hx]
      rfl)]
    have hdrop : (List.replicate i none ++ some e :: tail).drop (i + 1)
        = tail := by
      rw [← List.singleton_append, ← List.append_assoc]
      exact List.drop_left' (by simp)
    rw [hdrop, List.length_append, List.length_replicate]
    omega
  · rw [numUsed, numUsed, hs, hd]
    simp only [List.length_append, List.length_replicate, List.length_cons]
    omega

/-- Deleting some other entry leaves the first entry where it is. -/
theorem getValidPos_zero_del_ne {t : HashTable V} {e : Key × V}
    {rest : List (Key × V)} (h : t.entries = e :: rest) {k : Key}
    (hk : k ≠ e.1) : (t.del k).getValidPos 0 = t.getValidPos 0 := by
  obtain ⟨i, tail, hs, -⟩ := slots_eq_first h
  have hd : (t.del k).slots = List.replicate i none ++ some e
      :: trim (tail.map (Option.filter fun e' => e'.1 != k)) := by
    show trim (t.slots.map (Option.filter fun e' => e'.1 != k)) = _
    rw [hs, List.map_append, map_filter_replicate_none, List.map_cons]
    have hsome : Option.filter (fun e' : Key × V => e'.1 != k) (some e)
        = some e := by simp [Option.filter, Ne.symm hk]
    rw [hsome, trim_append_some]
  have h1 := (getValidPos_of_append (l := []) hs).1
  have h2 := (getValidPos_of_append (l := []) hd).1
  exact h2.trans h1.symm

/-- The last used slot holds the last entry. -/
theorem getCurrent_last (t : HashTable V) :
    t.getCurrent (t.numUsed - 1) = t.entries.getLast? := by
  by_cases hne : t.slots = []
  · rw [getCurrent_of_le (by rw [numUsed, hne]; exact Nat.zero_le _),
      slots_eq_nil_iff.mp hne]
    rfl
  · obtain ⟨l, e, hl⟩ := slots_eq_last hne
    have hlen : t.numUsed - 1 = l.length := by
      rw [numUsed, hl]
      simp
    have hcur := (getValidPos_of_append (t := t) (n := 0) (m := [])
      (l := l) (by simpa using hl)).2
    rw [hlen, hcur]
    unfold entries
    rw [hl, List.reduceOption_append]
    simp

/-- Inside the used slots there is always a live one ahead. -/
theorem getValidPos_lt {t : HashTable V} {pos : Nat} (h : pos < t.numUsed) :
    t.getValidPos pos < t.numUsed := by
  have hne : t.slots ≠ [] := by
    intro h0
    rw [numUsed, h0] at h
    exact absurd h (Nat.not_lt_zero _)
  obtain ⟨l, e, hl⟩ := slots_eq_last hne
  have hpos : pos ≤ l.length := by
    rw [numUsed, hl] at h
    simp only [List.length_append, List.length_cons, List.length_nil] at h
    omega
  unfold getValidPos numUsed
  rw [hl, List.drop_append_of_le_length hpos]
  have hle : ((l.drop pos ++ [some e]).takeWhile Option.isNone).length
      ≤ (l.drop pos).length := by
    rw [List.takeWhile_append]
    split
    · simp
    · exact (List.takeWhile_prefix _).length_le
  rw [List.length_drop] at hle
  rw [List.length_append, List.length_singleton]
  omega

/-- The last live slot below `n` ends the trimmed prefix. -/
theorem prevLive_eq (t : HashTable V) {n : Nat} (hn : n ≤ t.numUsed) :
    t.prevLive n = if (trim (t.slots.take n)).length = 0 then none
      else some ((trim (t.slots.take n)).length - 1) := by
  induction n with
  | zero => rfl
  | succ n ih =>
      have hlt : n < t.slots.length := hn
      have htake : t.slots.take (n + 1) = t.slots.take n ++ [t.slots[n]] :=
        List.take_succ_eq_append_getElem hlt
      rw [prevLive, List.getElem?_eq_getElem hlt, htake]
      cases hx : t.slots[n] with
      | none =>
          have htrim : trim (t.slots.take n ++ [none])
              = trim (t.slots.take n) :=
            List.rdropWhile_concat_pos _ _ _ rfl
          rw [htrim, ← ih (Nat.le_of_succ_le hn)]
          rfl
      | some e =>
          have htrim : trim (t.slots.take n ++ [some e])
              = t.slots.take n ++ [some e] :=
            List.rdropWhile_concat_neg _ _ _ (by simp)
          rw [htrim]
          simp [Nat.min_eq_left (Nat.le_of_lt hlt)]

theorem internalPointerEnd_eq {t : HashTable V} (h : t.slots ≠ []) :
    t.internalPointerEnd = t.numUsed - 1 := by
  have hpos : t.numUsed ≠ 0 := by
    rw [numUsed]
    simpa using h
  unfold internalPointerEnd
  rw [prevLive_eq t (Nat.le_refl _)]
  have htake : t.slots.take t.numUsed = t.slots := List.take_length
  rw [htake, trim_eq_self t.trimmed, ← numUsed, if_neg hpos]
  rfl

/-- Moving backwards from the last of several entries, then deleting
it, leaves the cursor on the last entry that remains. -/
theorem moveBackwards_last {t : HashTable V} {e f : Key × V}
    {init : List (Key × V)} (h : t.entries = init ++ [f, e]) :
    t.moveBackwards (t.numUsed - 1) = some ((t.del e.1).numUsed - 1)
      ∧ (t.del e.1).numUsed ≠ 0 := by
  have hne : t.slots ≠ [] := by
    intro h0
    rw [slots_eq_nil_iff.mp h0] at h
    simp at h
  obtain ⟨l, e', hl⟩ := slots_eq_last hne
  have hent : t.entries = l.reduceOption ++ [e'] := by
    unfold entries
    rw [hl, List.reduceOption_append]
    rfl
  have hsplit : l.reduceOption = init ++ [f] ∧ e' = e := by
    rw [hent, show init ++ [f, e] = (init ++ [f]) ++ [e] by simp] at h
    have := List.append_inj' h rfl
    exact ⟨this.1, by simpa using this.2⟩
  obtain ⟨hred, rfl⟩ := hsplit
  have hd := slots_del_last hl
  have hdne : (t.del e'.1).numUsed ≠ 0 := by
    rw [numUsed, hd]
    intro h0
    rw [List.length_eq_zero_iff] at h0
    have := reduceOption_trim l
    rw [h0, hred] at this
    simp at this
  have hlen : t.numUsed - 1 = l.length := by
    rw [numUsed, hl]
    simp
  have hlt : l.length < t.numUsed := by
    rw [numUsed, hl]
    simp
  refine ⟨?_, hdne⟩
  unfold moveBackwards
  rw [hlen, if_pos hlt, prevLive_eq t (Nat.le_of_lt hlt)]
  have htake : t.slots.take l.length = l := by
    rw [hl, List.take_left]
  rw [htake, ← hd, ← numUsed, if_neg hdne]
  rfl

-- ================================================= slots of an insert

theorem numElements_le_numUsed (t : HashTable V) :
    t.numElements ≤ t.numUsed := List.reduceOption_length_le t.slots

theorem numUsed_replace (t : HashTable V) (k : Key) (v : V) :
    (t.replace k v).numUsed = t.numUsed := List.length_map ..

/-- An insert relocates live slots when it finds the table full, Zend
compacts it, and some slot is a tombstone. -/
def relocates (compact : Bool) (t : HashTable V) : Bool :=
  decide (t.tableSize ≤ t.numUsed) && compact
    && decide (t.numElements < t.numUsed)

theorem slots_rehash_of_full {t : HashTable V}
    (h : ¬ t.numElements < t.numUsed) : t.rehash.slots = t.slots := by
  have hlen : t.slots.reduceOption.length = t.slots.length := by
    have := t.numElements_le_numUsed
    unfold numElements entries numUsed at this h
    omega
  show t.slots.reduceOption.map some = t.slots
  rw [List.reduceOption_length_eq_iff] at hlen
  generalize t.slots = l at hlen
  induction l with
  | nil => rfl
  | cons x l ih =>
      have hx := hlen x (List.mem_cons_self ..)
      obtain ⟨e, rfl⟩ := Option.isSome_iff_exists.mp hx
      rw [List.reduceOption_cons_of_some, List.map_cons,
        ih fun y hy => hlen y (List.mem_cons_of_mem _ hy)]

theorem slots_roomFor_of_not_relocates {compact : Bool} {t : HashTable V}
    (h : t.relocates compact = false) :
    (t.roomFor compact).slots = t.slots := by
  unfold roomFor
  split
  · rfl
  · next hfull =>
    split
    · next hc =>
      have htomb : ¬ t.numElements < t.numUsed := by
        intro hlt
        unfold relocates at h
        rw [hc, decide_eq_true (Nat.le_of_not_lt hfull),
          decide_eq_true hlt] at h
        cases h
      split
      · exact slots_rehash_of_full htomb
      · exact slots_rehash_of_full htomb
    · rfl

theorem slots_roomFor_of_relocates {compact : Bool} {t : HashTable V}
    (h : t.relocates compact = true) :
    (t.roomFor compact).slots = t.entries.map some := by
  unfold relocates at h
  simp only [Bool.and_eq_true, decide_eq_true_eq] at h
  obtain ⟨⟨hfull, hc⟩, -⟩ := h
  unfold roomFor
  rw [if_neg (Nat.not_lt.mpr hfull), if_pos hc]
  split
  · rfl
  · rfl

theorem slots_roomFor (compact : Bool) (t : HashTable V) :
    (t.roomFor compact).slots = t.slots
      ∨ (t.roomFor compact).slots = t.entries.map some := by
  cases h : t.relocates compact with
  | false => exact Or.inl (slots_roomFor_of_not_relocates h)
  | true => exact Or.inr (slots_roomFor_of_relocates h)

theorem slots_update_of_notMem {compact : Bool} {t : HashTable V} {k : Key}
    {v : V} (h : k ∉ t.entries.map Prod.fst) :
    (t.update compact k v).slots
      = (t.roomFor compact).slots ++ [some (k, v)] := by
  unfold update
  rw [dif_neg h]
  rfl

theorem numUsed_update_le (compact : Bool) (t : HashTable V) (k : Key)
    (v : V) : (t.update compact k v).numUsed ≤ t.numUsed + 1 := by
  by_cases h : k ∈ t.entries.map Prod.fst
  · rw [update_of_mem h, numUsed_replace]
    exact Nat.le_succ _
  · rw [numUsed, slots_update_of_notMem h, List.length_append,
      List.length_singleton]
    rcases slots_roomFor compact t with hr | hr
    · rw [hr]
      exact Nat.le_refl _
    · rw [hr, List.length_map]
      exact Nat.succ_le_succ t.numElements_le_numUsed

theorem entries_update_ne_nil (compact : Bool) (t : HashTable V) (k : Key)
    (v : V) : (t.update compact k v).entries ≠ [] :=
  List.ne_nil_of_mem (mem_entries_update.mpr (Or.inl rfl))

theorem getValidPos_zero_eq_zero {t : HashTable V} {e : Key × V}
    {m : List (Option (Key × V))} (h : t.slots = some e :: m) :
    t.getValidPos 0 = 0 :=
  (getValidPos_of_append (l := []) (n := 0) h).1

/-- An entry in slot 0 stays in slot 0, compacted or not. -/
theorem getValidPos_zero_update {t : HashTable V} (hne : t.entries ≠ [])
    (h : t.getValidPos 0 = 0) (compact : Bool) (k : Key) (v : V) :
    (t.update compact k v).getValidPos 0 = 0 := by
  obtain ⟨e, rest, he⟩ := List.exists_cons_of_ne_nil hne
  obtain ⟨i, tail, hs, -⟩ := slots_eq_first he
  have hi : i = 0 := by
    have hpos := (getValidPos_of_append (l := []) hs).1
    rw [List.length_nil, Nat.zero_add] at hpos
    rw [← hpos, h]
  subst hi
  rw [List.replicate_zero, List.nil_append] at hs
  by_cases hk : k ∈ t.entries.map Prod.fst
  · rw [update_of_mem hk]
    refine getValidPos_zero_eq_zero
      (e := if e.1 = k then (e.1, v) else e)
      (m := tail.map (Option.map fun e => if e.1 = k then (e.1, v) else e)) ?_
    show t.slots.map _ = _
    rw [hs]
    rfl
  · rcases slots_roomFor compact t with hr | hr
    · refine getValidPos_zero_eq_zero (e := e)
        (m := tail ++ [some (k, v)]) ?_
      rw [slots_update_of_notMem hk, hr, hs]
      rfl
    · refine getValidPos_zero_eq_zero (e := e)
        (m := rest.map some ++ [some (k, v)]) ?_
      rw [slots_update_of_notMem hk, hr, he]
      rfl

-- =================================================== next free element

/-- Every integer key is below `nNextFreeElement`, unless that is
saturated. -/
structure FreeAbove (t : HashTable V) : Prop where
  le : t.nextFree ≤ longMax
  above : ∀ {h}, .long h ∈ t.entries.map Prod.fst →
    h < t.nextFree ∨ t.nextFree = longMax

theorem freeAbove_init (size : Nat) : FreeAbove (init size : HashTable V) where
  le := show longMin ≤ longMax by decide
  above h := (List.not_mem_nil h).elim

theorem FreeAbove.of_keys {t : HashTable V} {t' : HashTable W}
    (h : FreeAbove t) (hf : t'.nextFree = t.nextFree)
    (hk : t'.entries.map Prod.fst ⊆ t.entries.map Prod.fst) :
    FreeAbove t' where
  le := hf ▸ h.le
  above hm := hf ▸ h.above (hk hm)

theorem FreeAbove.filter {t : HashTable V} (h : FreeAbove t)
    (p : Key → V → Bool) : FreeAbove (t.filter p) := by
  refine h.of_keys rfl ?_
  rw [entries_filter]
  exact (List.filter_sublist.map _).subset

theorem FreeAbove.mapVal {t : HashTable V} (h : FreeAbove t) (f : V → W) :
    FreeAbove (t.mapVal f) := by
  refine h.of_keys rfl ?_
  rw [entries_mapVal, List.map_map]
  exact List.Subset.refl _

@[simp] theorem nextFree_roomFor (compact : Bool) (t : HashTable V) :
    (t.roomFor compact).nextFree = t.nextFree := by
  unfold roomFor
  split
  · rfl
  · split
    · split <;> rfl
    · rfl

theorem FreeAbove.update {t : HashTable V} (h : FreeAbove t)
    (compact : Bool) (k : Key) (v : V) : FreeAbove (t.update compact k v) := by
  by_cases hk : k ∈ t.entries.map Prod.fst
  · rw [update_of_mem hk]
    refine h.of_keys rfl fun k' hk' => ?_
    have hupdate : t.update compact k v = t.replace k v := update_of_mem hk
    rw [← hupdate] at hk'
    obtain ⟨e, he, rfl⟩ := List.mem_map.mp hk'
    rcases mem_entries_update.mp he with rfl | ⟨he, -⟩
    · exact hk
    · exact List.mem_map_of_mem he
  · have hfree : (t.update compact k v).nextFree
        = bumpFree t.nextFree k := by
      unfold HashTable.update
      rw [dif_neg hk]
      exact congrArg (bumpFree · k) (nextFree_roomFor compact t)
    have hle := h.le
    refine ⟨?_, fun {n} hn => ?_⟩
    · rw [hfree]
      cases k with
      | str bytes => exact hle
      | long m =>
          unfold bumpFree
          split
          · split <;> omega
          · exact hle
    · rw [entries_update_of_notMem hk, List.map_append, List.mem_append,
        List.map_singleton, List.mem_singleton] at hn
      rw [hfree]
      rcases hn with hn | rfl
      · have habove := h.above hn
        cases k with
        | str bytes => exact habove
        | long m =>
            unfold bumpFree
            split
            · split <;> omega
            · exact habove
      · simp only [bumpFree]
        split
        · split <;> omega
        · omega

/-- The key an append proposes is taken only if `ZEND_LONG_MAX` is. -/
theorem nextKey_mem_iff {t : HashTable V} (h : FreeAbove t) :
    t.nextKey ∈ t.entries.map Prod.fst
      ↔ .long longMax ∈ t.entries.map Prod.fst := by
  have hmin : longMin < 0 := by decide
  have hmax : (0 : Int) < longMax := by decide
  constructor
  · intro hk
    unfold nextKey at hk
    split at hk
    case isTrue hf =>
      have habove := h.above hk
      omega
    case isFalse =>
      have habove := h.above hk
      have heq : t.nextFree = longMax := by omega
      rwa [heq] at hk
  · intro hk
    have habove := h.above hk
    have hle := h.le
    have heq : t.nextFree = longMax := by omega
    unfold nextKey
    rwa [if_neg (by omega), heq]

end HashTable

end PmmpThread.Zend
