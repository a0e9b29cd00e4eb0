/-
An array as its user sees it: entries in insertion order under distinct
keys, and the next integer key. A hash table stands for one
(`HashTable.toArray`); slots, tombstones and table sizes do not show.

# Calls

`exec` is what one call answers and leaves. A history lists calls with
what they took out (`Runs`). One call may be weaker than `exec`: a `pop`
that misses takes nothing and changes nothing (`Step.missed`).

# As a channel

While calls only push and take, nothing is lost, doubled or invented
(`Runs.conserves`), and without `pop` what is taken comes in the order
it was pushed in (`Runs.inOrder`). Both need the next keys to be free,
which they are until the integers run out (`Room`).
-/
import PmmpThread.Zend.Upsert

namespace PmmpThread.Zend

variable {V W : Type}

/-- Entries in insertion order and `nNextFreeElement`. -/
@[ext] structure OrderedArray (V : Type) where
  entries : List (Key × V)
  free : Int
  nodup : (entries.map Prod.fst).Nodup

/-- One call. -/
inductive OrderedArray.Call (V : Type) where
  | put (k : Key) (v : V)
  | push (v : V)
  | erase (k : Key)
  | shift
  | pop
  | take (n : Nat)
  | merge (es : List (Key × V)) (overwrite : Bool)
  deriving DecidableEq, Repr

/-- A replaced entry keeps its place; a new one goes to the end. -/
theorem keys_upsert (l : List (Key × V)) (k : Key) (v : V) :
    (upsert l k v).map Prod.fst
      = if k ∈ l.map Prod.fst then l.map Prod.fst
        else l.map Prod.fst ++ [k] := by
  unfold upsert
  by_cases h : k ∈ l.map Prod.fst
  · rw [if_pos h, if_pos h, List.map_map]
    refine List.map_congr_left fun e _ => ?_
    simp only [Function.comp_apply]
    split <;> rfl
  · rw [if_neg h, if_neg h, List.map_append]
    rfl

/-- Replacing or adding under one key keeps the keys different. -/
theorem nodup_upsert {l : List (Key × V)} (h : (l.map Prod.fst).Nodup)
    (k : Key) (v : V) : ((upsert l k v).map Prod.fst).Nodup := by
  rw [keys_upsert]
  by_cases hk : k ∈ l.map Prod.fst
  · rw [if_pos hk]
    exact h
  · rw [if_neg hk, List.nodup_append']
    exact ⟨h, List.nodup_singleton k, List.disjoint_singleton.mpr hk⟩

namespace OrderedArray

-- ========================================================== operations

def keys (a : OrderedArray V) : List Key := a.entries.map Prod.fst

def values (a : OrderedArray V) : List V := a.entries.map Prod.snd

/-- The key of a push. -/
def nextKey (a : OrderedArray V) : Key :=
  .long (if a.free = longMin then 0 else a.free)

/-- An insertion under a key, which moves the next free key past an integer
key that is new. -/
def put (a : OrderedArray V) (k : Key) (v : V) : OrderedArray V where
  entries := upsert a.entries k v
  free := if k ∈ a.keys then a.free else HashTable.bumpFree a.free k
  nodup := nodup_upsert a.nodup k v

/-- An insertion under the next free key. -/
def push (a : OrderedArray V) (v : V) : OrderedArray V := a.put a.nextKey v

/-- Some of the entries, in their order. -/
def restrict (a : OrderedArray V) (l : List (Key × V))
    (h : l.Sublist a.entries) : OrderedArray V :=
  ⟨l, a.free, a.nodup.sublist (h.map _)⟩

/-- A deletion: the other entries stay in order, and so does the next free
key. -/
def erase (a : OrderedArray V) (k : Key) : OrderedArray V :=
  a.restrict (a.entries.filter fun e => e.1 != k) List.filter_sublist

/-- One entry of a merge: without `overwrite` a present key is left alone.
-/
def mergeEntry (overwrite : Bool) (a : OrderedArray V) (e : Key × V) :
    OrderedArray V :=
  if overwrite = false ∧ e.1 ∈ a.keys then a else a.put e.1 e.2

/-- The entries of another array, in its order. -/
def merge (a : OrderedArray V) (es : List (Key × V)) (overwrite : Bool) :
    OrderedArray V := es.foldl (mergeEntry overwrite) a

/-- What a call takes out and the array it leaves. -/
def exec (a : OrderedArray V) : Call V → List (Key × V) × OrderedArray V
  | .put k v => ([], a.put k v)
  | .push v => ([], a.push v)
  | .erase k => ([], a.erase k)
  | .shift => (a.entries.take 1, a.restrict _ (a.entries.drop_sublist 1))
  | .pop =>
      (a.entries.getLast?.toList, a.restrict _ a.entries.dropLast_sublist)
  | .take n => (a.entries.take n, a.restrict _ (a.entries.drop_sublist n))
  | .merge es overwrite => ([], a.merge es overwrite)

/-- A call with what it took out: as `exec` says, or a `pop` that found
nothing. -/
inductive Step (a : OrderedArray V) :
    Call V × List (Key × V) → OrderedArray V → Prop
  | exact (c : Call V) : Step a (c, (a.exec c).1) (a.exec c).2
  | missed : Step a (.pop, []) a

/-- Calls one after the other. -/
def Runs : OrderedArray V → List (Call V × List (Key × V)) →
    OrderedArray V → Prop
  | a, [], b => b = a
  | a, x :: xs, b => ∃ c, Step a x c ∧ Runs c xs b

/-- The array with every value replaced. -/
def map (f : V → W) (a : OrderedArray V) : OrderedArray W where
  entries := mapVals f a.entries
  free := a.free
  nodup := by
    rw [keys_mapVals]
    exact a.nodup

def Call.map (f : V → W) : Call V → Call W
  | .put k v => .put k (f v)
  | .push v => .push (f v)
  | .erase k => .erase k
  | .shift => .shift
  | .pop => .pop
  | .take n => .take n
  | .merge es overwrite => .merge (mapVals f es) overwrite

@[simp] theorem keys_map (f : V → W) (a : OrderedArray V) :
    (a.map f).keys = a.keys := keys_mapVals f a.entries

theorem map_put (f : V → W) (a : OrderedArray V) (k : Key) (v : V) :
    (a.put k v).map f = (a.map f).put k (f v) := by
  refine OrderedArray.ext (mapVals_upsert f a.entries k v) ?_
  show (if k ∈ a.keys then _ else _) = if k ∈ (a.map f).keys then _ else _
  rw [keys_map]
  rfl

theorem map_mergeEntry (f : V → W) (overwrite : Bool) (a : OrderedArray V)
    (e : Key × V) :
    (mergeEntry overwrite a e).map f
      = mergeEntry overwrite (a.map f) (e.1, f e.2) := by
  unfold mergeEntry
  rw [keys_map]
  by_cases h : overwrite = false ∧ e.1 ∈ a.keys
  · rw [if_pos h, if_pos h]
  · rw [if_neg h, if_neg h, map_put]

theorem map_merge (f : V → W) (overwrite : Bool) (es : List (Key × V)) :
    ∀ a : OrderedArray V,
      (a.merge es overwrite).map f = (a.map f).merge (mapVals f es) overwrite
    := by
  induction es with
  | nil => exact fun _ => rfl
  | cons e es ih =>
      intro a
      show (merge (mergeEntry overwrite a e) es overwrite).map f = _
      rw [ih, map_mergeEntry]
      rfl

/-- Calls look at keys only, so they commute with a change of values. -/
theorem map_exec (f : V → W) (a : OrderedArray V) (c : Call V) :
    (a.map f).exec (c.map f)
      = (mapVals f (a.exec c).1, (a.exec c).2.map f) := by
  cases c with
  | put k v => exact Prod.ext rfl (map_put f a k v).symm
  | push v => exact Prod.ext rfl (map_put f a a.nextKey v).symm
  | merge es overwrite => exact Prod.ext rfl (map_merge f overwrite es a).symm
  | erase k =>
      refine Prod.ext rfl (OrderedArray.ext ?_ rfl)
      show (mapVals f a.entries).filter _ = mapVals f (a.entries.filter _)
      unfold mapVals
      rw [List.filter_map]
      rfl
  | shift =>
      refine Prod.ext ?_ (OrderedArray.ext ?_ rfl)
      · exact (List.map_take ..).symm
      · exact (List.map_drop ..).symm
  | take n =>
      refine Prod.ext ?_ (OrderedArray.ext ?_ rfl)
      · exact (List.map_take ..).symm
      · exact (List.map_drop ..).symm
  | pop =>
      refine Prod.ext ?_ (OrderedArray.ext ?_ rfl)
      · show (mapVals f a.entries).getLast?.toList
          = mapVals f a.entries.getLast?.toList
        unfold mapVals
        rw [List.getLast?_map]
        cases a.entries.getLast? <;> rfl
      · exact (List.map_dropLast ..).symm

/-- So does a step, a missed pop included. -/
theorem Step.map {a b : OrderedArray V} {x : Call V × List (Key × V)}
    (h : Step a x b) (f : V → W) :
    Step (a.map f) (x.1.map f, mapVals f x.2) (b.map f) := by
  cases h with
  | exact c =>
      have hexec := map_exec f a c
      have hstep := Step.exact (a := a.map f) (c.map f)
      rw [hexec] at hstep
      exact hstep
  | missed => exact .missed

/-- Runs, put one after the other. -/
theorem Runs.append {xs ys : List (Call V × List (Key × V))} :
    ∀ {a b c : OrderedArray V}, Runs a xs b → Runs b ys c →
      Runs a (xs ++ ys) c := by
  induction xs with
  | nil =>
      intro a b c h h'
      rw [show b = a from h] at h'
      exact h'
  | cons x xs ih =>
      intro a b c h h'
      obtain ⟨d, hd, h⟩ := h
      exact ⟨d, hd, ih h h'⟩

-- ======================================================== as a channel

/-- The call pushes or takes. -/
def Call.transfers : Call V → Bool
  | .push _ | .shift | .pop | .take _ => true
  | _ => false

/-- What a call pushes. -/
def Call.pushed : Call V → List V
  | .push v => [v]
  | _ => []

/-- The values a history pushes, in order. -/
def pushed (xs : List (Call V × List (Key × V))) : List V :=
  xs.flatMap fun x => x.1.pushed

/-- The values a history takes out, in order. -/
def taken (xs : List (Call V × List (Key × V))) : List V :=
  xs.flatMap fun x => x.2.map Prod.snd

/-- The keys of the next `n` pushes are free. -/
def Room (n : Nat) (a : OrderedArray V) : Prop :=
  0 < n → (∀ h, .long h ∈ a.keys → h < a.free) ∧ max a.free 0 + n ≤ longMax

/-- Room for fewer keys, with no key more. -/
theorem Room.mono {n m : Nat} {a b : OrderedArray V} (h : Room n a)
    (hm : m ≤ n) (hf : b.free = a.free) (hk : b.keys ⊆ a.keys) :
    Room m b := by
  intro hpos
  obtain ⟨habove, hroom⟩ := h (by omega)
  refine ⟨fun k hmem => hf ▸ habove k (hk hmem), ?_⟩
  rw [hf]
  omega

/-- A push into an array with room appends, and uses up one key. -/
theorem push_of_room {n : Nat} {a : OrderedArray V} (h : Room (n + 1) a)
    (v : V) :
    (a.push v).entries = a.entries ++ [(a.nextKey, v)]
      ∧ Room n (a.push v) := by
  obtain ⟨habove, hroom⟩ := h (Nat.succ_pos n)
  have hmax : longMax = 9223372036854775807 := rfl
  have hmin : longMin = -9223372036854775808 := rfl
  obtain ⟨m, hm, hge, hlt, hbound⟩ : ∃ m, a.nextKey = .long m ∧ a.free ≤ m
      ∧ m < longMax ∧ max (m + 1) 0 + n ≤ longMax := by
    refine ⟨_, rfl, ?_⟩
    split
    · omega
    · omega
  have hnew : a.nextKey ∉ a.keys := by
    intro hk
    rw [hm] at hk
    have := habove m hk
    omega
  have hent : (a.push v).entries = a.entries ++ [(a.nextKey, v)] := by
    show upsert a.entries a.nextKey v = _
    unfold upsert
    exact if_neg hnew
  have hfree : (a.push v).free = m + 1 := by
    show (if a.nextKey ∈ a.keys then _ else _) = _
    rw [if_neg hnew, hm]
    simp only [HashTable.bumpFree, if_pos hge, if_pos hlt]
  refine ⟨hent, fun _ => ⟨fun k hk => ?_, ?_⟩⟩
  · rw [hfree]
    unfold keys at hk
    rw [hent, List.map_append, List.mem_append] at hk
    rcases hk with hk | hk
    · have := habove k hk
      omega
    · rw [List.map_singleton, List.mem_singleton, hm] at hk
      injection hk with hk
      omega
  · rw [hfree]
    exact hbound

/-- One call that pushes or takes: the values before it and what it
pushes are what it takes and the values after it. -/
theorem Step.conserves {n : Nat} {a b : OrderedArray V}
    {x : Call V × List (Key × V)} (h : Step a x b)
    (hx : x.1.transfers = true) (hroom : Room (x.1.pushed.length + n) a) :
    (a.values ++ x.1.pushed).Perm (x.2.map Prod.snd ++ b.values)
      ∧ (x.1 ≠ .pop →
        a.values ++ x.1.pushed = x.2.map Prod.snd ++ b.values)
      ∧ Room n b := by
  have htake : ∀ m, a.values = (a.entries.take m).map Prod.snd
      ++ (a.entries.drop m).map Prod.snd := by
    intro m
    rw [← List.map_append, List.take_append_drop]
    rfl
  have hsub : ∀ {l} (hl : l.Sublist a.entries), Room (0 + n) a →
      Room n (a.restrict l hl) := by
    intro l hl hr
    exact hr.mono (by omega) rfl (hl.map _).subset
  cases h with
  | missed =>
      refine ⟨?_, fun hne => absurd rfl hne, ?_⟩
      · show (a.values ++ []).Perm ([] ++ a.values)
        rw [List.append_nil]
        exact List.Perm.refl _
      · exact Room.mono hroom (Nat.le_add_left ..) rfl
          (List.Subset.refl _)
  | exact c =>
      cases c with
      | put k v => cases hx
      | erase k => cases hx
      | merge es overwrite => cases hx
      | push v =>
          obtain ⟨hent, hr⟩ := push_of_room (n := n)
            (hroom.mono (Nat.le_of_eq (Nat.add_comm n 1)) rfl
              (List.Subset.refl _)) v
          have heq : a.values ++ [v] = (a.push v).values := by
            unfold values
            rw [hent, List.map_append]
            rfl
          refine ⟨?_, fun _ => heq, hr⟩
          show (a.values ++ [v]).Perm (a.push v).values
          rw [heq]
      | shift =>
          have heq : a.values ++ [] = (a.entries.take 1).map Prod.snd
              ++ (a.entries.drop 1).map Prod.snd := by
            rw [List.append_nil]
            exact htake 1
          exact ⟨List.Perm.of_eq heq, fun _ => heq,
            hsub (a.entries.drop_sublist 1) hroom⟩
      | take m =>
          have heq : a.values ++ [] = (a.entries.take m).map Prod.snd
              ++ (a.entries.drop m).map Prod.snd := by
            rw [List.append_nil]
            exact htake m
          exact ⟨List.Perm.of_eq heq, fun _ => heq,
            hsub (a.entries.drop_sublist m) hroom⟩
      | pop =>
          refine ⟨?_, fun hne => absurd rfl hne,
            hsub a.entries.dropLast_sublist hroom⟩
          show (a.values ++ []).Perm
            (a.entries.getLast?.toList.map Prod.snd
              ++ a.entries.dropLast.map Prod.snd)
          rw [List.append_nil, ← List.map_append]
          refine List.Perm.map _ ?_
          rcases List.eq_nil_or_concat' a.entries with hnil | ⟨l, e, hcat⟩
          · rw [hnil]
            exact List.Perm.refl _
          · rw [hcat, List.getLast?_concat, List.dropLast_concat]
            exact List.perm_append_comm

/-- A run of transfers loses and doubles nothing: what was there and what
was pushed is what was taken and what is there. By induction on the run;
each push uses one of the free keys. -/
theorem Runs.conserves {xs : List (Call V × List (Key × V))} :
    ∀ {a b : OrderedArray V}, Runs a xs b →
      (∀ x ∈ xs, x.1.transfers = true) → Room (pushed xs).length a →
      (a.values ++ pushed xs).Perm (taken xs ++ b.values) := by
  induction xs with
  | nil =>
      intro a b h _ _
      rw [show b = a from h]
      show (a.values ++ []).Perm ([] ++ a.values)
      rw [List.append_nil]
      exact List.Perm.refl _
  | cons x xs ih =>
      intro a b h hall hroom
      obtain ⟨c, hc, h⟩ := h
      have hlen : (pushed (x :: xs)).length
          = x.1.pushed.length + (pushed xs).length := List.length_append
      rw [hlen] at hroom
      obtain ⟨hperm, -, hr⟩ :=
        hc.conserves (hall x List.mem_cons_self) hroom
      have hrest := ih h (fun y hy => hall y (List.mem_cons_of_mem x hy)) hr
      show (a.values ++ (x.1.pushed ++ pushed xs)).Perm
        ((x.2.map Prod.snd ++ taken xs) ++ b.values)
      rw [← List.append_assoc, List.append_assoc (x.2.map Prod.snd)]
      refine (hperm.append_right _).trans ?_
      rw [List.append_assoc]
      exact hrest.append_left _

/-- Without pops it keeps the order as well. -/
theorem Runs.inOrder {xs : List (Call V × List (Key × V))} :
    ∀ {a b : OrderedArray V}, Runs a xs b →
      (∀ x ∈ xs, x.1.transfers = true ∧ x.1 ≠ .pop) →
      Room (pushed xs).length a →
      a.values ++ pushed xs = taken xs ++ b.values := by
  induction xs with
  | nil =>
      intro a b h _ _
      rw [show b = a from h]
      exact List.append_nil _
  | cons x xs ih =>
      intro a b h hall hroom
      obtain ⟨c, hc, h⟩ := h
      have hlen : (pushed (x :: xs)).length
          = x.1.pushed.length + (pushed xs).length := List.length_append
      rw [hlen] at hroom
      obtain ⟨htrans, hpop⟩ := hall x List.mem_cons_self
      obtain ⟨-, heq, hr⟩ := hc.conserves htrans hroom
      have hrest := ih h (fun y hy => hall y (List.mem_cons_of_mem x hy)) hr
      calc a.values ++ (x.1.pushed ++ pushed xs)
          = (a.values ++ x.1.pushed) ++ pushed xs :=
            (List.append_assoc ..).symm
        _ = x.2.map Prod.snd ++ (c.values ++ pushed xs) := by
            rw [heq hpop, List.append_assoc]
        _ = x.2.map Prod.snd ++ (taken xs ++ b.values) := by rw [hrest]
        _ = (x.2.map Prod.snd ++ taken xs) ++ b.values :=
            (List.append_assoc ..).symm

end OrderedArray

-- ==================================================== of a hash table

namespace HashTable

/-- The array a table stands for. -/
def toArray (t : HashTable V) : OrderedArray V :=
  ⟨t.entries, t.nextFree, t.nodup⟩

@[simp] theorem keys_toArray (t : HashTable V) :
    t.toArray.keys = t.entries.map Prod.fst := rfl

/-- The table's operations are the array's: an insertion, compacting or
not, -/
theorem toArray_update (compact : Bool) (t : HashTable V) (k : Key)
    (v : V) : (t.update compact k v).toArray = t.toArray.put k v := by
  refine OrderedArray.ext (entries_update compact t k v) ?_
  show _ = if k ∈ t.entries.map Prod.fst then t.nextFree else _
  by_cases hk : k ∈ t.entries.map Prod.fst
  · rw [if_pos hk]
    show (t.update compact k v).nextFree = _
    rw [update_of_mem hk]
    rfl
  · rw [if_neg hk]
    show (t.update compact k v).nextFree = _
    unfold update
    rw [dif_neg hk]
    exact congrArg (bumpFree · k) (nextFree_roomFor compact t)

/-- a deletion, -/
theorem toArray_del (t : HashTable V) (k : Key) :
    (t.del k).toArray = t.toArray.erase k :=
  OrderedArray.ext (entries_filter _ t) rfl

/-- and a change of all values in place. -/
theorem toArray_mapVal (f : V → W) (t : HashTable V) :
    (t.mapVal f).toArray = t.toArray.map f :=
  OrderedArray.ext (entries_mapVal f t) rfl

/-- The keys of `n` pushes are free if the counter has `n` to go. -/
theorem FreeAbove.room {t : HashTable V} (h : FreeAbove t) {n : Nat}
    (hn : max t.nextFree 0 + n ≤ longMax) : t.toArray.Room n := by
  intro hpos
  refine ⟨fun k hk => ?_, hn⟩
  have hmax : (0 : Int) < longMax := by decide
  rcases h.above hk with hlt | heq
  · exact hlt
  · exfalso
    omega

end HashTable

end PmmpThread.Zend
