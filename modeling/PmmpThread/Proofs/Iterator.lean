/-
What a valid iterator denotes.

A slot number stands for the first live slot from it on (`ahead`). The
iterator's own moves end at a number that stands for an entry, or at
`HT_INVALID_IDX`. A mutation may take away everything from the number on,
or move it all to the front, and the iterator stays valid: its key is then
null, and its value is what a read of the empty string finds, which is
what null is coerced to. The entry itself is found if its key is canonical
and the local table of the connection has no other value for it
(`Settled`); without coincidences among the values that is also necessary
(`settled_of_denotes`).
-/
import PmmpThread.Proofs.Keys
import PmmpThread.Proofs.Tables

namespace PmmpThread.Model.Iteration

open Zend HashTable Store

variable {V : Type} (dtoa : Float → List UInt8) (retain : V → Bool)

-- ================================================== what is asked of it

/-- A valid iterator gives the key and the value of one entry. -/
def Denotes (i : Iteration V) : Prop :=
  i.validate = true → ∃ e ∈ i.store.hash.entries,
    i.currentKey = some e.1 ∧ (i.currentData dtoa retain).1 = some e.2

/-- The entries in the slots from a number on. -/
def ahead (s : Store V) (p : Nat) : List (Key × V) :=
  (s.hash.slots.drop p).reduceOption

/-- There is an entry at the position or after it; the first one has a
canonical key, and the local table no other value for that key. -/
structure Live (i : Iteration V) (p : Nat) : Prop where
  entry : ahead i.store p ≠ []
  key : ∀ e, (ahead i.store p).head? = some e → Canonical dtoa e.1
  cached : ∀ e, (ahead i.store p).head? = some e →
    ∀ v, i.cached e.1 = some v → v = e.2

def Settled (i : Iteration V) : Prop :=
  ∀ p, i.position = some p → Live dtoa i p

/-- The value of an entry is not read under another key. -/
def Distinct (i : Iteration V) : Prop :=
  ∀ e ∈ i.store.hash.entries, ∀ k,
    i.store.read i.cached k = some e.2 → k = e.1

/-- A step that leaves an entry for a valid iterator, puts canonical
keys into the table, and leaves nothing stale in the local table. -/
def Spares (i : Iteration V) : Step V → Prop
  | .rewind | .moveForward | .currentData => True
  | .mutate op cached =>
      (∀ p, i.position = some p → ahead i.store p ≠ [] →
        ahead (i.store.apply op) p ≠ [])
      ∧ (∀ k ∈ (i.store.apply op).hash.entries.map Prod.fst,
        Canonical dtoa k)
      ∧ Fresh (i.store.apply op) cached

def AllSpare : Iteration V → List (Step V) → Prop
  | _, [] => True
  | i, st :: steps =>
      Spares dtoa i st ∧ AllSpare (i.step dtoa retain st) steps

-- ================================================== one state

theorem key_eq_head (s : Store V) (p : Nat) :
    s.key (some p) = (ahead s p).head?.map Prod.fst := by
  unfold key ahead
  rw [Option.bind_some, getCurrent_eq_head]

theorem ahead_head_mem {s : Store V} {p : Nat} {e : Key × V}
    (h : (ahead s p).head? = some e) : e ∈ s.hash.entries := by
  have hmem := List.mem_of_mem_head? h
  unfold ahead at hmem
  exact List.reduceOption_mem_iff.mpr
    (List.mem_of_mem_drop (List.reduceOption_mem_iff.mp hmem))

/-- At a position with an entry ahead the two calls are about its key. -/
theorem current_of_head {i : Iteration V} {p : Nat} {e : Key × V}
    (hp : i.position = some p) (he : (ahead i.store p).head? = some e) :
    i.currentKey = some e.1
      ∧ (i.currentData dtoa retain).1
        = i.store.read i.cached ((KeyZval.ofKey e.1).coerce dtoa) := by
  have hkey : i.store.key i.position = some e.1 := by
    rw [hp, key_eq_head, he]
    rfl
  refine ⟨hkey, ?_⟩
  unfold currentData data dataMember
  rw [hkey]
  rfl

theorem denotes_of_settled {i : Iteration V} (h : Settled dtoa i) :
    Denotes dtoa retain i := by
  intro hvalid
  obtain ⟨p, hp⟩ := Option.isSome_iff_exists.mp hvalid
  obtain ⟨hne, hcanonical, hcached⟩ := h p hp
  obtain ⟨e, rest, he⟩ := List.exists_cons_of_ne_nil hne
  have hhead : (ahead i.store p).head? = some e := by
    rw [he]
    rfl
  obtain ⟨hkey, hdata⟩ := current_of_head dtoa retain hp hhead
  have hmem := ahead_head_mem hhead
  refine ⟨e, hmem, hkey, ?_⟩
  have hk : (KeyZval.ofKey e.1).coerce dtoa = e.1 := hcanonical e hhead
  rw [hdata, hk, Store.read]
  cases hc : i.cached e.1 with
  | none => rw [Option.none_or, find_eq_some_iff.mpr hmem]
  | some v => rw [Option.some_or, hcached e hhead v hc]

/-- The iterator has no other way to the value of its entry than through
its key, unless another key happens to have that value too. -/
theorem settled_of_denotes {i : Iteration V} (hdistinct : Distinct i)
    (h : Denotes dtoa retain i) : Settled dtoa i := by
  intro p hp
  have hvalid : i.validate = true := by
    rw [validate, hp, Option.isSome_some]
  obtain ⟨e, he, hkey, hval⟩ := h hvalid
  have hhead : ∃ e', (ahead i.store p).head? = some e' ∧ e'.1 = e.1 := by
    rw [currentKey, hp, key_eq_head] at hkey
    exact Option.map_eq_some_iff.mp hkey
  obtain ⟨e', he', hk⟩ := hhead
  have hee : e' = e := by
    have hfind := find_eq_some_iff.mpr (ahead_head_mem he')
    rw [hk, find_eq_some_iff.mpr he] at hfind
    exact Prod.ext hk (Option.some.inj hfind).symm
  subst hee
  rw [(current_of_head dtoa retain hp he').2] at hval
  have hcanonical : Canonical dtoa e'.1 := hdistinct e' he _ hval
  refine ⟨fun hnil => ?_, fun e he'' => ?_, fun e he'' v hv => ?_⟩
  · rw [hnil] at he'
    cases he'
  · rw [← Option.some.inj (he'.symm.trans he'')]
    exact hcanonical
  · have hread : i.store.read i.cached e'.1 = some e'.2 := by
      have hk : (KeyZval.ofKey e'.1).coerce dtoa = e'.1 := hcanonical
      rw [← hval, hk]
    rw [← Option.some.inj (he'.symm.trans he'')] at hv ⊢
    rw [Store.read, hv, Option.some_or] at hread
    exact Option.some.inj hread

-- ============================================================ the moves

/-- The invariant of a run that spares the iterator. -/
structure Sound (i : Iteration V) : Prop where
  bounds : BoundsInv i.store
  keys : ∀ k ∈ i.store.hash.entries.map Prod.fst, Canonical dtoa k
  fresh : Fresh i.store i.cached
  position : ∀ p, i.position = some p → ahead i.store p ≠ []

/-- With canonical keys any entry ahead will do. -/
theorem Sound.settled {i : Iteration V} (h : Sound dtoa i) :
    Settled dtoa i := by
  intro p hp
  refine ⟨h.position p hp, fun e he => ?_, fun e he => ?_⟩
  · exact h.keys e.1 (List.mem_map.mpr ⟨e, ahead_head_mem he, rfl⟩)
  · exact h.fresh e (ahead_head_mem he)

theorem ahead_first {s : Store V} (hne : s.hash.entries ≠ []) :
    ahead s (s.hash.getValidPos 0) ≠ [] := by
  unfold ahead
  rw [drop_getValidPos, reduceOption_dropWhile, List.drop_zero]
  exact hne

/-- A rewind goes to the first entry. -/
theorem Sound.rewind {i : Iteration V} (h : Sound dtoa i) :
    Sound dtoa i.rewind := by
  obtain ⟨hpos, hhash, -, -⟩ := reset_spec h.bounds.first
  refine ⟨apply_boundsInv h.bounds .reset, ?_, ?_, fun p hp => ?_⟩
  · show ∀ k ∈ i.store.reset.2.hash.entries.map Prod.fst, _
    rw [hhash]
    exact h.keys
  · show ∀ e ∈ i.store.reset.2.hash.entries, _
    rw [hhash]
    exact h.fresh
  · change i.store.reset.1 = some p at hp
    show (i.store.reset.2.hash.slots.drop p).reduceOption ≠ []
    rw [hpos] at hp
    split at hp
    case isTrue => cases hp
    case isFalse hne =>
      rw [hhash, ← Option.some.inj hp]
      exact ahead_first hne

/-- A move is checked against the table. -/
theorem forward_ahead {s : Store V} {q : Option Nat} {p : Nat}
    (h : s.forward q = some p) : ahead s p ≠ [] := by
  obtain ⟨p', -, hp'⟩ := Option.bind_eq_some_iff.mp h
  dsimp only at hp'
  split at hp'
  case isTrue hmore =>
    rw [← Option.some.inj hp']
    intro hnil
    unfold hasMoreElements at hmore
    rw [getCurrent_eq_head] at hmore
    unfold ahead at hnil
    rw [hnil] at hmore
    cases hmore
  case isFalse => cases hp'

theorem Sound.step {i : Iteration V} (h : Sound dtoa i) {st : Step V}
    (hspare : Spares dtoa i st) : Sound dtoa (i.step dtoa retain st) := by
  cases st with
  | rewind => exact h.rewind
  | moveForward =>
      exact ⟨h.bounds, h.keys, h.fresh, fun _ hp => forward_ahead hp⟩
  | currentData =>
      exact ⟨h.bounds, h.keys, h.fresh.remember retain _, h.position⟩
  | mutate op cached =>
      exact ⟨apply_boundsInv h.bounds op, hspare.2.1, hspare.2.2,
        fun p hp => hspare.1 p hp (h.position p hp)⟩

theorem run_sound (steps : List (Step V)) :
    ∀ {i : Iteration V}, Sound dtoa i → AllSpare dtoa retain i steps →
      Sound dtoa (i.run dtoa retain steps) := by
  induction steps with
  | nil => exact fun h _ => h
  | cons st steps ih =>
      intro i h hall
      exact ih (h.step dtoa retain hall.1) hall.2

/-- For every store that calls have made, every local table and every run
of calls of the iterator and mutations: after a run in which each mutation
leaves an entry at or after the position, puts only canonical keys into
the table and leaves nothing stale in the local table, the iterator denotes
an entry of the table. In whatever state a run ends, it does so if there is
an entry ahead whose key is canonical and not stale; and only then, unless
another key is read with the value of an entry. -/
theorem iterator_denotes_iff (before : List (Op V)) (cached : Cached V)
    (steps : List (Step V)) :
    let start := create (Store.init.run before) cached
    let i := start.run dtoa retain steps
    ((∀ k ∈ (Store.init.run before).hash.entries.map Prod.fst,
          Canonical dtoa k) →
        Fresh (Store.init.run before) cached →
        AllSpare dtoa retain start steps → Denotes dtoa retain i)
      ∧ (Settled dtoa i → Denotes dtoa retain i)
      ∧ (Distinct i → Denotes dtoa retain i → Settled dtoa i) := by
  intro start i
  refine ⟨fun hkeys hfresh hall => ?_, denotes_of_settled dtoa retain,
    settled_of_denotes dtoa retain⟩
  have hstart : Sound dtoa (⟨Store.init.run before, cached, none⟩ :
      Iteration V) :=
    ⟨run_boundsInv boundsInv_init before, hkeys, hfresh,
      fun p hp => by cases hp⟩
  have h := run_sound dtoa retain steps (hstart.rewind dtoa) hall
  exact denotes_of_settled dtoa retain (h.settled dtoa)

/-- A rewind, and an append while the iterator is on the first entry. -/
theorem iterator_denotes_iff_append :
    Denotes (fun _ => []) (fun _ => true)
        ((create (Store.init.run [.write (.long 0) 7 false])
          fun _ => none).run (fun _ => []) (fun _ => true)
          [.rewind, .mutate (.append 8 true) fun _ => none])
      ∧ ((create (Store.init.run [.write (.long 0) 7 false])
          fun _ => none).run (fun _ => []) (fun _ => true)
          [.rewind, .mutate (.append 8 true) fun _ => none]).validate
        = true := by
  have hlong : ∀ (t : HashTable Nat) (hs : List Int),
      t.entries.map Prod.fst = hs.map .long →
      ∀ k ∈ t.entries.map Prod.fst, Canonical (fun _ => []) k := by
    intro t hs hks k hk
    rw [hks] at hk
    obtain ⟨h, -, rfl⟩ := List.mem_map.mp hk
    exact canonical_long _ h
  have hnone : ∀ s : Store Nat, Fresh s fun _ => none :=
    fun s e _ v hv => by cases hv
  refine ⟨(iterator_denotes_iff (fun _ => []) (fun _ => true)
    [.write (.long 0) 7 false] (fun _ => none)
    [.rewind, .mutate (.append 8 true) fun _ => none]).1 (hlong _ [0] rfl)
    (hnone _) ⟨trivial, ⟨fun p hp _ => ?_, hlong _ [0, 1] rfl, hnone _⟩,
      trivial⟩, by decide⟩
  have hzero : p = 0 := by
    have hpos : (((create (Store.init.run [.write (.long 0) 7 false])
        fun _ => none).step (fun _ => []) (fun _ => true)
        .rewind).position : Option Nat) = some 0 := by decide
    exact Option.some.inj (hp.symm.trans hpos)
  rw [hzero]
  decide

/-- `$a[""] = 5; $a[1] = 6;` An iterator on the second entry, which is then
deleted: it is valid, its key is null, and its value is the one of the
first entry. -/
theorem iterator_not_denotes :
    let i := (create (Store.init.run
      [.write (.str []) 5 false, .write (.long 1) 6 false])
      fun _ => none).run (fun _ => []) (fun _ => true)
        [.moveForward, .mutate (.delete (.long 1)) fun _ => none]
    i.validate = true ∧ i.currentKey = none
      ∧ (i.currentData (fun _ => []) fun _ => true).1 = some 5
      ∧ ¬ Denotes (fun _ => []) (fun _ => true) i := by
  refine ⟨by decide, by decide, by decide, fun h => ?_⟩
  obtain ⟨e, -, hkey, -⟩ := h (by decide)
  have hnone : ((create (Store.init.run
      [.write (.str []) 5 false, .write (.long 1) 6 false])
      fun _ => none).run (fun _ => []) (fun _ => true)
        [.moveForward, .mutate (.delete (.long 1)) fun _ => none]).currentKey
      = none := by
    decide
  rw [hnone] at hkey
  cases hkey

end PmmpThread.Model.Iteration
