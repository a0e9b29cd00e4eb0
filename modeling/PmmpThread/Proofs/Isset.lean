/-
`isset` and `empty` of a member against the value that a read of it gives.

On every storage but a string the two sets of rules are the same. A string
counts as empty as soon as it begins with '0', where PHP takes only "0"
itself for empty (`ZeroLed`). What the storage cannot show is whether the
value can still be restored, and what the connection's local table has in
its place.
-/
import PmmpThread.Model.Handlers
import PmmpThread.Proofs.CachedReads

namespace PmmpThread.Model.World

open Zend

variable {E : Engine} {t : ThreadId} {w u : World} {st : Storage} {v : Zval}

-- ================================================== what is asked of it

/-- `isset` and `!empty` say what the value read says. -/
structure IssetAgrees (E : Engine) (w : World) (c : Addr) (x : Conn)
    (k : Key) : Prop where
  notEmpty : w.storeIsset c k .notEmpty = some true
    ↔ x.o.props.hash.contains k = true
      ∧ ∃ v u, w.readValue E c k = some (v, u) ∧ u.isTrue v = true
  isset : w.storeIsset c k .isset = some true
    ↔ x.o.props.hash.contains k = true
      ∧ ∃ v u, w.readValue E c k = some (v, u) ∧ v ≠ .null

/-- A string that begins with '0' and goes on. -/
def ZeroLed (w : World) (st : Storage) : Prop :=
  ∃ c b, w.storedBytes st = some (48 :: c :: b)

/-- The value is on the same side of both tests as the storage. -/
def SameSide (w u : World) (st : Storage) (v : Zval) : Prop :=
  (w.issetNotEmpty st = some true ↔ u.isTrue v = true)
    ∧ (st = .null ↔ v = .null)

/-- When the two agree on a member that is there. With nothing in the
local table the value has to be restorable. What the local table has is
the stored value, or else one that is on the same side. And the stored
value is not a string that begins with '0' and goes on. -/
def IssetSound (E : Engine) (w : World) (x : Conn) (k : Key) (st : Storage) :
    Prop :=
  match (w.readSync x).cached k with
  | none => w.restoreFate E x.z.owner st = .value ∧ ¬ ZeroLed w st
  | some v => Means w w st v ∧ ¬ ZeroLed w st
      ∨ ¬ Means w w st v ∧ SameSide w w st v

-- ============================================================== strings

/-- The two tests on strings differ on these only. -/
theorem issetString_iff (b : Bytes) :
    issetString b = true
      ↔ stringIsTrue b = true ∧ ¬ ∃ c b', b = 48 :: c :: b' := by
  unfold issetString stringIsTrue
  cases b with
  | nil => simp
  | cons c b =>
      cases b with
      | nil => simp
      | cons d b => simp

theorem sameString_iff (b : Bytes) :
    (issetString b = true ↔ stringIsTrue b = true)
      ↔ ¬ ∃ c b', b = 48 :: c :: b' := by
  rw [issetString_iff]
  constructor
  · rintro h ⟨c, b', rfl⟩
    exact (h.mpr rfl).2 ⟨c, b', rfl⟩
  · exact fun h => ⟨fun hs => hs.1, fun hs => ⟨hs, h⟩⟩

-- ====================================================== meant values

theorem not_zeroLed_of_none (h : w.storedBytes st = none) : ¬ ZeroLed w st := by
  rintro ⟨c, b, hb⟩
  rw [h] at hb
  cases hb

/-- A value that the storage means is on its side exactly if the storage is
no such string. -/
theorem sameSide_iff (h : Means w u st v) :
    SameSide w u st v ↔ ¬ ZeroLed w st := by
  have hstring : ∀ {b : Bytes}, w.storedBytes st = some b →
      w.issetNotEmpty st = some (issetString b) → st ≠ .null → v ≠ .null →
      u.isTrue v = stringIsTrue b →
      (SameSide w u st v ↔ ¬ ZeroLed w st) := by
    intro b hb hi hst hv ht
    unfold SameSide ZeroLed
    rw [hi, ht, hb, Option.some.injEq, sameString_iff]
    simp only [Option.some.injEq, hst, hv, iff_self, and_true]
  have hplain : w.storedBytes st = none →
      SameSide w u st v → (SameSide w u st v ↔ ¬ ZeroLed w st) :=
    fun hb hs => ⟨fun _ => not_zeroLed_of_none hb, fun _ => hs⟩
  cases st with
  | null =>
      cases (show v = .null from h)
      exact hplain rfl ⟨by simp [issetNotEmpty, isTrue], by simp⟩
  | bool b =>
      cases (show v = .bool b from h)
      exact hplain rfl ⟨by cases b <;> simp [issetNotEmpty, isTrue], by simp⟩
  | long n =>
      cases (show v = .long n from h)
      exact hplain rfl ⟨by simp [issetNotEmpty, isTrue], by simp⟩
  | double d =>
      cases (show v = .double d from h)
      exact hplain rfl ⟨by simp [issetNotEmpty, isTrue], by simp⟩
  | string permanent b =>
      cases permanent with
      | true =>
          cases (show v = .interned b from h)
          exact hstring rfl rfl (by simp) (by simp) rfl
      | false =>
          obtain ⟨q, o, rfl, hq⟩ := h
          refine hstring rfl rfl (by simp) (by simp) ?_
          simp only [isTrue, hq, Option.any_some]
  | stringPtr owner p b =>
      obtain ⟨s, q, o, hp, rfl, hq⟩ := h
      have hb : w.storedBytes (.stringPtr owner p b) = some s.bytes := by
        show (w.strings.get p).map Str.bytes = _
        rw [hp]
        rfl
      refine hstring hb ?_ (by simp) (by simp) ?_
      · show (w.storedBytes (.stringPtr owner p b)).map issetString = _
        rw [hb]
        rfl
      · simp only [isTrue, hq, Option.any_some]
  | closure q thisObj owner =>
      obtain ⟨p, cl, cl', rfl, -⟩ := h
      exact hplain rfl ⟨by simp [issetNotEmpty, isTrue], by simp⟩
  | object a b =>
      obtain ⟨l, rfl, -⟩ := h
      exact hplain rfl ⟨by simp [issetNotEmpty, isTrue], by simp⟩
  | socket s =>
      obtain ⟨s', rfl, -⟩ := h
      exact hplain rfl ⟨by simp [issetNotEmpty, isTrue], by simp⟩
  | enumCase cls name =>
      cases (show v = .enumCase cls name from h)
      exact hplain rfl ⟨by simp [issetNotEmpty, isTrue], by simp⟩

/-- A storage that need not give a value is taken for set and not empty. -/
theorem isset_of_not_value (hown : OwnInv w) {s : TsAddr} {k : Key}
    (he : w.entry s k = some st) (h : w.restoreFate E t st ≠ .value) :
    w.issetNotEmpty st = some true := by
  cases st with
  | stringPtr owner p b =>
      have hp := ((hown owner).strings he).1
      exact absurd (by simp [restoreFate, hp]) h
  | closure p thisObj owner => rfl
  | object a b => rfl
  | enumCase cls name => rfl
  | _ => exact absurd rfl h

-- ========================================================= the two sides

/-- Agreement on a member that is there, once the read is known. -/
theorem issetAgrees_iff_side {c : Addr} {x : Conn} (hx : w.conn c = some x)
    {k : Key} (hst : x.o.props.hash.find k = some st)
    (hr : w.readValue E c k = some (v, u)) :
    IssetAgrees E w c x k ↔ SameSide w u st v := by
  have hmem : x.o.props.hash.contains k = true := by
    unfold HashTable.contains
    rw [hst]
    rfl
  have hne : w.storeIsset c k .notEmpty = w.issetNotEmpty st := by
    unfold storeIsset
    rw [hx, Option.bind_some, hst]
    rfl
  have his : w.storeIsset c k .isset = some (st != .null) := by
    unfold storeIsset
    rw [hx, Option.bind_some, hst]
    rfl
  have hread : ∀ P : Zval → World → Prop,
      (∃ v' u', w.readValue E c k = some (v', u') ∧ P v' u') ↔ P v u := by
    intro P
    rw [hr]
    constructor
    · rintro ⟨v', u', heq, hp⟩
      obtain ⟨rfl, rfl⟩ := Prod.mk.inj (Option.some.inj heq)
      exact hp
    · exact fun hp => ⟨v, u, rfl, hp⟩
  have h1 := hread fun v u => u.isTrue v = true
  have h2 := hread fun v _ => v ≠ .null
  constructor
  · rintro ⟨hn, hi⟩
    rw [hne, h1] at hn
    rw [his, h2, Option.some.injEq, bne_iff_ne] at hi
    refine ⟨hn.trans (and_iff_right hmem), ?_⟩
    exact not_iff_not.mp (hi.trans (and_iff_right hmem))
  · rintro ⟨hn, hi⟩
    refine ⟨?_, ?_⟩
    · rw [hne, h1, hn]
      exact (and_iff_right hmem).symm
    · rw [his, h2, Option.some.injEq, bne_iff_ne]
      exact (not_congr hi).trans (and_iff_right hmem).symm

/-- Nor do they agree where the read ends in a fault. -/
theorem not_issetAgrees_of_fault {c : Addr} {x : Conn}
    (hx : w.conn c = some x) {k : Key}
    (hst : x.o.props.hash.find k = some st)
    (hn : w.issetNotEmpty st = some true)
    (hr : w.readValue E c k = none) : ¬ IssetAgrees E w c x k := by
  rintro ⟨h, -⟩
  have hne : w.storeIsset c k .notEmpty = some true := by
    unfold storeIsset
    rw [hx, Option.bind_some, hst]
    exact hn
  obtain ⟨-, v, u, hv, -⟩ := h.mp hne
  rw [hr] at hv
  cases hv

theorem readValue_of_some {c : Addr} {x : Conn} (hx : w.conn c = some x)
    {k : Key} (hv : (w.readSync x).cached k = some v) :
    w.readValue E c k = some (v, w.setLocal c (w.readSync x)) := by
  unfold readValue
  rw [readLocked_of_some hx hv]

/-- What a read gives for a restored storage. -/
def Restored.readValue (u : World) : Restored → Option (Zval × World)
  | .value v => some (v, u)
  | .failed => some (.null, u)
  | .fault => none

/-- Without a cached value a read restores the storage. -/
theorem readValue_of_none {c : Addr} {x : Conn} (hx : w.conn c = some x)
    {k : Key} (hn : (w.readSync x).cached k = none)
    (hst : x.o.props.hash.find k = some st) {r : Restored}
    (hr : (w.setLocal c (w.readSync x)).restoreZval E x.z.owner st = (r, u)) :
    w.readValue E c k = Restored.readValue u r := by
  unfold readValue
  rw [readLocked_of_none hx hn, readShared_of_allowed (Or.inl rfl) hst, hr]
  cases r <;> rfl

/-- A member that is not there: all three say so. -/
theorem issetAgrees_absent {c : Addr} {x : Conn} (hx : w.conn c = some x)
    {k : Key} (hst : x.o.props.hash.find k = none) :
    IssetAgrees E w c x k := by
  have hno : x.o.props.hash.contains k = false := by
    unfold HashTable.contains
    rw [hst]
    rfl
  have hset : ∀ mode, w.storeIsset c k mode = some false := by
    intro mode
    unfold storeIsset
    rw [hx, Option.bind_some, hst]
  refine ⟨?_, ?_⟩
  · rw [hset, hno]
    simp
  · rw [hset, hno]
    simp

/-- A member with a cached value: the read gives that value, so agreement is
on its side. -/
theorem issetAgrees_cached {c : Addr} {x : Conn} (hx : w.conn c = some x)
    {k : Key} (hst : x.o.props.hash.find k = some st)
    (hv : (w.readSync x).cached k = some v) :
    IssetAgrees E w c x k ↔ Means w w st v ∧ ¬ ZeroLed w st
      ∨ ¬ Means w w st v ∧ SameSide w w st v := by
  rw [issetAgrees_iff_side hx hst (readValue_of_some (E := E) hx hv)]
  have hside : SameSide w (w.setLocal c (w.readSync x)) st v
      ↔ SameSide w w st v := by
    unfold SameSide
    rw [show (w.setLocal c (w.readSync x)).isTrue v = w.isTrue v by
      cases v <;> rfl]
  rw [hside]
  by_cases hm : Means w w st v
  · rw [sameSide_iff hm]
    exact ⟨fun h => Or.inl ⟨hm, h⟩,
      fun h => h.elim And.right fun h => absurd hm h.1⟩
  · exact ⟨fun h => Or.inr ⟨hm, h⟩,
      fun h => h.elim (fun h => absurd h.1 hm) And.right⟩

/-- A member whose read restores no value, but fails or faults: `isset` takes
it for set, the read does not. -/
theorem not_issetAgrees_of_not_value (hown : OwnInv w) {c : Addr} {x : Conn}
    (hx : w.conn c = some x) {k : Key}
    (hst : x.o.props.hash.find k = some st)
    (hv : (w.readSync x).cached k = none) {r : Restored}
    (hr : (w.setLocal c (w.readSync x)).restoreZval E x.z.owner st = (r, u))
    (hfate : Restored.fate r = w.restoreFate E x.z.owner st)
    (hne : w.restoreFate E x.z.owner st ≠ .value) :
    ¬ IssetAgrees E w c x k := by
  obtain ⟨-, -, ho⟩ := conn_eq_some.mp hx
  have he : w.entry x.s k = some st := (entry_eq ho k).trans hst
  have htrue := isset_of_not_value hown he hne
  have hval := readValue_of_none hx hv hst hr
  intro h
  cases r with
  | value v => exact hne hfate.symm
  | failed =>
      have hnull := ((issetAgrees_iff_side hx hst hval).mp h).1.mp htrue
      exact Bool.false_ne_true hnull
  | fault => exact not_issetAgrees_of_fault hx hst htrue hval h

/-- A member without a cached value: agreement needs a value to restore. -/
theorem issetAgrees_restored (hw : Reachable E w) {c : Addr} {x : Conn}
    (hx : w.conn c = some x) {k : Key}
    (hst : x.o.props.hash.find k = some st)
    (hv : (w.readSync x).cached k = none) :
    IssetAgrees E w c x k
      ↔ w.restoreFate E x.z.owner st = .value ∧ ¬ ZeroLed w st := by
  have hs := hw.skel
  obtain ⟨hf, hm⟩ := restored_setLocal (E := E) hs c (w.readSync x) st
    x.z.owner
  rcases hr : (w.setLocal c (w.readSync x)).restoreZval E x.z.owner st
    with ⟨r, u⟩
  rw [hr] at hf hm
  by_cases hne : w.restoreFate E x.z.owner st = .value
  · cases r with
    | value v =>
        have hval := readValue_of_none hx hv hst hr
        rw [issetAgrees_iff_side hx hst hval, sameSide_iff (hm v rfl)]
        exact (and_iff_right hne).symm
    | failed => cases hf.trans hne
    | fault => cases hf.trans hne
  · refine ⟨fun h => ?_, fun h => absurd h.1 hne⟩
    exact absurd h (not_issetAgrees_of_not_value hw.own hx hst hv hr hf hne)

/-- In every reachable world, for every connection and every key: `isset`
and `empty` say what the value read says, exactly if the member is not
there, or `IssetSound` holds of what is stored. -/
theorem isset_agrees_iff (E : Engine) (w : World) (hw : Reachable E w)
    (c : Addr) (x : Conn) (hx : w.conn c = some x) (k : Key) :
    IssetAgrees E w c x k
      ↔ ∀ st, x.o.props.hash.find k = some st → IssetSound E w x k st := by
  cases hst : x.o.props.hash.find k with
  | none =>
      exact ⟨fun _ st h => (nomatch h), fun _ => issetAgrees_absent hx hst⟩
  | some st =>
      simp only [Option.some.injEq, forall_eq']
      unfold IssetSound
      cases hv : (w.readSync x).cached k with
      | some v => exact issetAgrees_cached hx hst hv
      | none => exact issetAgrees_restored hw hx hst hv

/-- Thread 1 stores a string under key 0, and thread 2 connects. -/
def putString (b : Bytes) : List Act :=
  [.alloc 1 [] .threaded [], .ctor 1, .newString 1 b,
    .write 1 (some (.long 0)) (.string 1), .finish 1, .connect 2 1]

theorem putString_world {b : Bytes}
    (hview : (run (demoEngine .bump) init (putString b)).map
        (fun w => ((w.ready 2).isSome, (w.ready 2).map fun x =>
          (w.readSync x).cached (.long 0))) = some (true, some none))
    (hview' : (run (demoEngine .bump) init (putString b)).map
        (fun w => ((w.ready 2).bind fun x => x.o.props.hash.find (.long 0),
          (w.strings.get 1).map Str.bytes))
        = some (some (.stringPtr 1 1 b), some b)) :
    ∃ w x, Reachable (demoEngine .bump) w ∧ w.conn 2 = some x
      ∧ x.o.props.hash.find (.long 0) = some (.stringPtr 1 1 b)
      ∧ (w.readSync x).cached (.long 0) = none
      ∧ w.storedBytes (.stringPtr 1 1 b) = some b := by
  obtain ⟨w, hw, hv⟩ := Option.map_eq_some_iff.mp hview
  rw [hw] at hview'
  obtain ⟨hready, hcached⟩ := Prod.mk.inj hv
  obtain ⟨hstored, hbytes⟩ := Prod.mk.inj (Option.some.inj hview')
  obtain ⟨x, hx⟩ := Option.isSome_iff_exists.mp hready
  rw [hx] at hstored hcached
  exact ⟨w, x, ⟨_, hw⟩, (ready_eq_some.mp hx).1, hstored,
    Option.some.inj hcached, hbytes⟩

theorem isset_agrees_iff_putString :
    ∃ w x, Reachable (demoEngine .bump) w ∧ w.conn 2 = some x
      ∧ x.o.props.hash.contains (.long 0) = true
      ∧ IssetAgrees (demoEngine .bump) w 2 x (.long 0) := by
  obtain ⟨w, x, hw, hx, hst, hn, hb⟩ :=
    putString_world (b := [97]) (by decide) (by decide)
  have hmem : x.o.props.hash.contains (.long 0) = true := by
    unfold HashTable.contains
    rw [hst]
    rfl
  refine ⟨w, x, hw, hx, hmem, ?_⟩
  refine (isset_agrees_iff (demoEngine .bump) w hw 2 x hx (.long 0)).mpr
    fun st h => ?_
  rw [← Option.some.inj (hst.symm.trans h)]
  unfold IssetSound
  rw [hn]
  refine ⟨?_, ?_⟩
  · show (if (w.strings.get 1).isSome then Fate.value else .fault) = .value
    rw [if_pos]
    rw [← Option.isSome_map (f := Str.bytes)]
    exact Option.isSome_iff_exists.mpr ⟨_, hb⟩
  · rintro ⟨c, b, h0⟩
    rw [hb] at h0
    cases h0

/-- "0.5" is true in PHP, and empty in a ThreadSafeArray. -/
theorem isset_disagrees :
    ∃ w x, Reachable (demoEngine .bump) w ∧ w.conn 2 = some x
      ∧ w.storeIsset 2 (.long 0) .notEmpty = some false
      ∧ stringIsTrue [48, 46, 53] = true
      ∧ ¬ IssetAgrees (demoEngine .bump) w 2 x (.long 0) := by
  obtain ⟨w, x, hw, hx, hst, hn, hb⟩ :=
    putString_world (b := [48, 46, 53]) (by decide) (by decide)
  have hempty : w.storeIsset 2 (.long 0) .notEmpty = some false := by
    unfold storeIsset
    rw [hx, Option.bind_some, hst]
    show (w.storedBytes (.stringPtr 1 1 [48, 46, 53])).map issetString = _
    rw [hb]
    rfl
  refine ⟨w, x, hw, hx, hempty, by decide, fun hagree => ?_⟩
  obtain ⟨r, hr⟩ : ∃ r, (w.setLocal 2 (w.readSync x)).restoreZval
      (demoEngine .bump) x.z.owner (.stringPtr 1 1 [48, 46, 53]) = r :=
    ⟨_, rfl⟩
  obtain ⟨hf, hm⟩ := restored_setLocal (E := demoEngine .bump) hw.skel 2
    (w.readSync x) (.stringPtr 1 1 [48, 46, 53]) x.z.owner
  obtain ⟨r, u⟩ := r
  rw [hr] at hf hm
  have hvalue : w.restoreFate (demoEngine .bump) x.z.owner
      (.stringPtr 1 1 [48, 46, 53]) = .value := by
    show (if (w.strings.get 1).isSome then Fate.value else .fault) = .value
    rw [if_pos]
    rw [← Option.isSome_map (f := Str.bytes)]
    exact Option.isSome_iff_exists.mpr ⟨_, hb⟩
  rw [hvalue] at hf
  cases r with
  | value v =>
      have hside := (issetAgrees_iff_side hx hst
        (readValue_of_none hx hn hst hr)).mp hagree
      exact (sameSide_iff (hm v rfl)).mp hside ⟨46, [53], hb⟩
  | failed => cases hf
  | fault => cases hf

end PmmpThread.Model.World
