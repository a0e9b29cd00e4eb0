/-
When the keys of a ThreadSafeArray are canonical, and what its iteration
yields.

A key of the table is canonical when `pmmpthread_store_coerce` leaves it
alone. Writes never take a key out of the table, so that one key which is
not canonical stays until the end: the keys of the table are canonical
exactly when every key that was written is (`canonical_run_iff`). The
iteration reads each value through `pmmpthread_store_coerce` again
(`iterateFrom_spec`), and then finds its own entry, unless the local
table of the connection has another value for the key (`Fresh`).
-/
import PmmpThread.Model.Keys
import PmmpThread.Proofs.Bounds

namespace PmmpThread.Model

open Zend HashTable

variable (dtoa : Float → List UInt8)

-- ====================================================== canonical keys

/-- A fixed point of `pmmpthread_store_coerce`. -/
def Canonical (k : Key) : Prop := (KeyZval.ofKey k).coerce dtoa = k

/-- A string or an integer, or something that does not print as a decimal
integer: `true` does, and so do some floats and references. -/
def KeyZval.plain : KeyZval → Bool
  | .string _ | .long _ => true
  | z => (handleNumericStr (z.getString dtoa)).isNone

theorem canonical_long (h : Int) : Canonical dtoa (.long h) := rfl

theorem coerce_numeric {bytes : List UInt8} {n : Int}
    (h : handleNumericStr bytes = some n) :
    (KeyZval.string bytes).coerce dtoa = .long n := by
  simp only [KeyZval.coerce, coerceString, h]

theorem coerce_not_numeric {bytes : List UInt8}
    (h : handleNumericStr bytes = none) :
    (KeyZval.string bytes).coerce dtoa = .str bytes := by
  simp only [KeyZval.coerce, coerceString, h]

theorem canonical_str_iff {bytes : List UInt8} :
    Canonical dtoa (.str bytes) ↔ handleNumericStr bytes = none := by
  unfold Canonical KeyZval.ofKey
  cases h : handleNumericStr bytes with
  | none => simp [coerce_not_numeric dtoa h]
  | some n => simp [coerce_numeric dtoa h]

/-- Which values are stored under a canonical key. -/
theorem canonical_coerce_iff (z : KeyZval) :
    Canonical dtoa (z.coerce dtoa) ↔ z.plain dtoa = true := by
  cases z with
  | null | bool | double | reference | other =>
      simp [KeyZval.plain, KeyZval.coerce, canonical_str_iff]
  | long h => simp [KeyZval.plain, KeyZval.coerce, canonical_long]
  | string bytes =>
      cases h : handleNumericStr bytes with
      | none =>
          simp [KeyZval.plain, coerce_not_numeric dtoa h, canonical_str_iff, h]
      | some n =>
          simp [KeyZval.plain, coerce_numeric dtoa h, canonical_long]

namespace Store

variable {V : Type}

/-- The key written by a call is one of the canonical ones. -/
def Call.plain : Call V → Bool
  | .writeDimension (some z) _ _ => z.plain dtoa
  | .writeDimension none _ _ | .rewind => true

/-- The member that a call writes. -/
def Call.member (s : Store V) : Call V → Option Key
  | .writeDimension (some z) _ _ => some (z.coerce dtoa)
  | .writeDimension none _ _ => some s.hash.nextKey
  | .rewind => none

theorem canonical_member_iff (s : Store V) (c : Call V) :
    (∀ k, c.member dtoa s = some k → Canonical dtoa k)
      ↔ c.plain dtoa = true := by
  cases c with
  | writeDimension z v compact =>
      cases z with
      | none => simp [Call.member, Call.plain, nextKey, canonical_long]
      | some z => simp [Call.member, Call.plain, canonical_coerce_iff]
  | rewind => simp [Call.member, Call.plain]

theorem mem_keys_update {compact : Bool} {t : HashTable V} {k k' : Key}
    {v : V} : k' ∈ (t.update compact k v).entries.map Prod.fst
      ↔ k' ∈ t.entries.map Prod.fst ∨ k' = k := by
  simp only [List.mem_map, mem_entries_update]
  constructor
  · rintro ⟨e, rfl | ⟨he, -⟩, rfl⟩
    · exact Or.inr rfl
    · exact Or.inl ⟨e, he, rfl⟩
  · rintro (⟨e, he, rfl⟩ | rfl)
    · by_cases hk : e.1 = k
      · exact ⟨(k, v), Or.inl rfl, hk.symm⟩
      · exact ⟨e, Or.inr ⟨he, hk⟩, rfl⟩
    · exact ⟨(k', v), Or.inl rfl, rfl⟩

/-- A call adds at most the member it writes. -/
theorem mem_keys_apply {s : Store V} (hb : BoundsInv s) (c : Call V)
    (k : Key) : k ∈ (s.apply (c.op dtoa)).hash.entries.map Prod.fst
      ↔ k ∈ s.hash.entries.map Prod.fst ∨ c.member dtoa s = some k := by
  cases c with
  | writeDimension z v compact =>
      cases z with
      | none =>
          simp only [Call.op, apply, write_hash, mem_keys_update,
            Call.member, Store.member, Option.some.injEq, Option.getD_none]
          rw [eq_comm (b := k)]
      | some z =>
          simp only [Call.op, apply, write_hash, mem_keys_update,
            Call.member, Store.member, Option.some.injEq, Option.getD_some]
          rw [eq_comm (b := k)]
  | rewind =>
      simp only [Call.op, apply, (reset_spec hb.first).2.1, Call.member]
      simp

/-- The keys of the table are canonical exactly when those it began with
and those written are. -/
theorem canonical_run_iff (calls : List (Call V)) {s : Store V}
    (hb : BoundsInv s) :
    (∀ k ∈ (s.run (calls.map (Call.op dtoa))).hash.entries.map Prod.fst,
        Canonical dtoa k)
      ↔ (∀ k ∈ s.hash.entries.map Prod.fst, Canonical dtoa k)
        ∧ ∀ c ∈ calls, c.plain dtoa = true := by
  induction calls generalizing s with
  | nil => simp
  | cons c calls ih =>
      rw [List.map_cons, run_cons, ih (apply_boundsInv hb _)]
      simp only [mem_keys_apply dtoa hb, or_imp, forall_and,
        canonical_member_iff, List.forall_mem_cons]
      tauto

-- =========================================================== iteration

variable (retain : V → Bool)

/-- The local table has no value for a key of the table but the one of its
entry. -/
def Fresh (s : Store V) (cached : Cached V) : Prop :=
  ∀ e ∈ s.hash.entries, ∀ v, cached e.1 = some v → v = e.2

instance [DecidableEq V] (s : Store V) (cached : Cached V) :
    Decidable (Fresh s cached) :=
  decidable_of_iff (∀ e ∈ s.hash.entries, ∀ v ∈ cached e.1, v = e.2)
    (by simp only [Fresh, Option.mem_def])

/-- With nothing stale in the local table a read finds the entry. -/
theorem Fresh.read {s : Store V} {cached : Cached V} (h : Fresh s cached)
    {e : Key × V} (he : e ∈ s.hash.entries) :
    s.read cached e.1 = some e.2 := by
  unfold Store.read
  cases hc : cached e.1 with
  | none => rw [Option.none_or, find_eq_some_iff.mpr he]
  | some v => rw [Option.some_or, h e he v hc]

/-- What a read leaves in the local table is what it answered. -/
theorem read_remember (s : Store V) (cached : Cached V) (k k' : Key) :
    s.read (s.remember retain cached k) k' = s.read cached k' := by
  unfold remember
  cases hr : s.read cached k with
  | none => rfl
  | some v =>
      dsimp only
      split
      case isFalse => rfl
      case isTrue =>
        by_cases hk : k' = k
        · subst hk
          rw [hr, Store.read, Function.update_self, Option.some_or]
        · unfold Store.read
          rw [Function.update_of_ne hk]

theorem Fresh.remember {s : Store V} {cached : Cached V}
    (h : Fresh s cached) (k : Key) :
    Fresh s (s.remember retain cached k) := by
  intro e he v hv
  have hread : s.read (s.remember retain cached k) e.1 = some v := by
    rw [Store.read, hv, Option.some_or]
  rw [read_remember, h.read he] at hread
  exact (Option.some.inj hread).symm

/-- A `foreach` from a position on: each entry in turn, with what a read
of the coerced key answers. -/
theorem iterateFrom_spec (s : Store V) (cached : Cached V) :
    ∀ (n : Nat) (here : Cached V) (p : Nat) {e : Key × V}
      {rest : List (Key × V)}, s.read here = s.read cached →
      (s.hash.slots.drop p).reduceOption = e :: rest → rest.length < n →
      s.iterateFrom dtoa retain n here (some p)
        = (e :: rest).map fun e =>
          (some e.1, s.read cached ((KeyZval.ofKey e.1).coerce dtoa)) := by
  intro n
  induction n with
  | zero =>
      intro here p e rest _ _ hn
      omega
  | succ n ih =>
      intro here p e rest hhere he hn
      have hkey : s.key (some p) = some e.1 := by
        simp [key, getCurrent_eq_head, he]
      have hdata : (s.data dtoa retain here (some p)).1
          = s.read cached ((KeyZval.ofKey e.1).coerce dtoa) := by
        simp [data, dataMember, hkey, hhere]
      have hafter : s.read (s.data dtoa retain here (some p)).2
          = s.read cached := by
        rw [← hhere]
        exact funext fun k' => read_remember retain s here _ k'
      obtain ⟨q, hq, -, hrest⟩ := moveForward_of_reduceOption he
      have hforward : s.forward (some p)
          = if rest.head?.isSome then some q else none := by
        simp [forward, hq, hasMoreElements, getCurrent_eq_head, hrest]
      unfold iterateFrom
      dsimp only
      rw [hkey, hdata, hforward, List.map_cons]
      congr 1
      cases rest with
      | nil =>
          simp [iterateFrom]
      | cons e' rest =>
          have hlt : rest.length < n := by
            rw [List.length_cons] at hn
            omega
          simpa using ih _ q hafter hrest hlt

/-- A whole `foreach` over a table of a run. -/
theorem iterate_spec {s : Store V} (hb : BoundsInv s) (cached : Cached V)
    {n : Nat} (hn : s.hash.numElements ≤ n) :
    s.iterateFrom dtoa retain n cached s.reset.1
      = s.hash.entries.map fun e =>
        (some e.1, s.read cached ((KeyZval.ofKey e.1).coerce dtoa)) := by
  rw [(reset_spec hb.first).1]
  cases he : s.hash.entries with
  | nil => simp [iterateFrom]
  | cons e rest =>
      have hall : (s.hash.slots.drop (s.hash.getValidPos 0)).reduceOption
          = e :: rest := by
        rw [drop_getValidPos, reduceOption_dropWhile, List.drop_zero]
        exact he
      have hlt : rest.length < n := by
        rw [numElements, he, List.length_cons] at hn
        omega
      rw [if_neg (List.cons_ne_nil _ _)]
      exact iterateFrom_spec dtoa retain s cached n cached _ rfl hall hlt

/-- With canonical keys every round yields the entry itself exactly if
nothing in the local table is stale. -/
theorem iterate_of_canonical {s : Store V} (cached : Cached V)
    (h : ∀ k ∈ s.hash.entries.map Prod.fst, Canonical dtoa k) :
    (s.hash.entries.map fun e =>
      (some e.1, s.read cached ((KeyZval.ofKey e.1).coerce dtoa)))
      = (s.hash.entries.map fun e => (some e.1, some e.2))
      ↔ Fresh s cached := by
  rw [List.map_inj_left]
  have hk : ∀ e ∈ s.hash.entries, (KeyZval.ofKey e.1).coerce dtoa = e.1 :=
    fun e he => h e.1 (List.mem_map.mpr ⟨e, he, rfl⟩)
  constructor
  · intro hall e he v hv
    have hread := congrArg Prod.snd (hall e he)
    dsimp only at hread
    rw [hk e he, Store.read, hv, Option.some_or] at hread
    exact Option.some.inj hread
  · intro hfresh e he
    rw [hk e he, hfresh.read he]

/-- The keys of a table are canonical, and its iteration yields each entry
with its own value once and in order, exactly when no key that was
written goes through its string form and prints as a decimal integer, and
the local table of the connection has nothing stale. -/
theorem keys_canonical_iff (calls : List (Call V)) (cached : Cached V) :
    let s := init.run (calls.map (Call.op dtoa))
    ((∀ e ∈ s.hash.entries, (KeyZval.ofKey e.1).coerce dtoa = e.1)
      ∧ ∀ n, s.hash.numElements ≤ n →
        s.iterateFrom dtoa retain n cached s.reset.1
          = s.hash.entries.map fun e => (some e.1, some e.2))
      ↔ (∀ c ∈ calls, c.plain dtoa = true) ∧ Fresh s cached := by
  intro s
  have hb : BoundsInv s := run_boundsInv boundsInv_init _
  have hrun : (∀ k ∈ s.hash.entries.map Prod.fst, Canonical dtoa k)
      ↔ ∀ c ∈ calls, c.plain dtoa = true := by
    have hiff := canonical_run_iff dtoa calls (boundsInv_init (V := V))
    refine hiff.trans ?_
    simp [init]
  rw [← hrun]
  constructor
  · rintro ⟨h, hall⟩
    have hkeys : ∀ k ∈ s.hash.entries.map Prod.fst, Canonical dtoa k := by
      intro k hk
      obtain ⟨e, he, rfl⟩ := List.mem_map.mp hk
      exact h e he
    refine ⟨hkeys, (iterate_of_canonical dtoa cached hkeys).mp ?_⟩
    rw [← iterate_spec dtoa retain hb cached le_rfl]
    exact hall _ le_rfl
  · rintro ⟨h, hfresh⟩
    refine ⟨fun e he => h e.1 (List.mem_map.mpr ⟨e, he, rfl⟩), ?_⟩
    intro n hn
    rw [iterate_spec dtoa retain hb cached hn]
    exact (iterate_of_canonical dtoa cached h).mpr hfresh

/-- `$a[1] = 6; $a[true] = 5;` -/
def writesTrue : List (Call Nat) :=
  [.writeDimension (some (.long 1)) 6 false,
    .writeDimension (some (.bool true)) 5 false]

/-- The second entry is stored under `"1"`, and the iteration yields the
value of the first one for it. -/
theorem true_key_not_canonical :
    let dtoa : Float → List UInt8 := fun _ => []
    let s := init.run (writesTrue.map (Call.op dtoa))
    s.hash.entries = [(.long 1, 6), (.str [49], 5)]
      ∧ (KeyZval.ofKey (.str [49])).coerce dtoa = .long 1
      ∧ s.iterateFrom dtoa (fun _ => true) 2 (fun _ => none) s.reset.1
        = [(some (.long 1), some 6), (some (.str [49]), some 6)] := by
  decide

end Store

end PmmpThread.Model
