/-
Runs of the calls that use the shared strings: the loops, which go over
different keys, and then every order of calls by any threads.

# Enum cases

A merge between two ThreadSafeArrays copies the storage of an enum case
with its pointers, so both tables own the names then. The runs of
`shared_strings_refine` have no such merge. The others go well as long as
no call frees a name that an entry still has (`Good.spared`);
`merged_enum_dangles` is what happens otherwise.
-/
import PmmpThread.Proofs.SharedStrings

namespace PmmpThread.Model.SharedStrings

open Zend Heap

variable {V : Type} {A : Allocator} {h h' : Memory} {s s' : State V}
  {a : TsAddr} {k : Key} {shared : Prop}

-- ============================================================== loops

/-- `u` has for `k` what `s` has. -/
structure Agrees (shared : Prop) (s u : State V) (k : Key) : Prop where
  good : Good shared u
  find : ∀ a, (u.tables a).find k = (s.tables a).find k
  contents : ∀ a, u.contents a k = s.contents a k
  permanent : ∀ {p b}, s.memory.get p = some ⟨b, true⟩ →
    u.memory.get p = some ⟨b, true⟩

/-- A round on another key. -/
theorem Agrees.changed {u u' : State V} {k' : Key} {c : Option (Content V)}
    (hu : Agrees shared s u k) (hc : Changed shared u u' a k' c)
    (hk : k ≠ k') : Agrees shared s u' k where
  good := hc.good
  find a' := (hc.others fun h => hk h.2).trans (hu.find a')
  contents a' := by
    rw [hc.contents]
    exact (if_neg fun h => hk h.2).trans (hu.contents a')
  permanent hp := hc.permanent (hu.permanent hp)

/-- A loop over different keys, each round of which makes `c k` of the
entry of its key. -/
theorem loop_changes {f : State V → Key → Option (State V)}
    {c : Key → Option (Content V)} (ks : List Key)
    (hround : ∀ k ∈ ks, ∀ u, Agrees shared s u k →
      ∃ u', f u k = some u' ∧ Changed shared u u' a k (c k)) :
    ∀ u, ks.Nodup → Good shared u → (∀ k ∈ ks, Agrees shared s u k) →
      ∃ u', ks.foldlM f u = some u' ∧ Good shared u' ∧ u'.contents
        = fun a' k => if a' = a ∧ k ∈ ks then c k else u.contents a' k := by
  induction ks with
  | nil =>
      intro u _ hu _
      refine ⟨u, rfl, hu, ?_⟩
      funext a' k
      exact (if_neg fun h => List.not_mem_nil h.2).symm
  | cons k ks ih =>
      intro u hnd _ hagree
      obtain ⟨hnot, hnd⟩ := List.nodup_cons.mp hnd
      obtain ⟨u₁, hf, hc⟩ :=
        hround k List.mem_cons_self u (hagree k List.mem_cons_self)
      obtain ⟨u', hrun, hgood, hcontents⟩ := ih
        (fun k' hk' => hround k' (List.mem_cons_of_mem _ hk')) u₁ hnd hc.good
        fun k' hk' => (hagree k' (List.mem_cons_of_mem _ hk')).changed hc
          fun heq => hnot (heq ▸ hk')
      refine ⟨u', foldlM_cons_iff.mpr ⟨u₁, hf, hrun⟩, hgood, ?_⟩
      rw [hcontents, hc.contents]
      funext a' k'
      unfold Contents.set
      by_cases ha : a' = a
      · by_cases hk : k' = k
        · subst hk
          simp [ha, hnot]
        · simp [ha, hk]
      · simp [ha]

theorem nodup_keys (s : State V) (a : TsAddr) : (s.keys a).Nodup := by
  have hnd : ((s.tables a).entries.map Prod.fst).Nodup := (s.tables a).nodup
  exact hnd

theorem Good.agrees (hs : Good shared s) (k : Key) : Agrees shared s s k :=
  ⟨hs, fun _ => rfl, fun _ => rfl, fun hp => hp⟩

theorem Agrees.forever {u : State V} (hu : Agrees shared s u k) {p : Nat}
    (hp : s.Forever p) : u.Forever p :=
  hp.imp fun _ => hu.permanent

/-- Who has the names of a key is seen in its entries. -/
theorem Agrees.sole {u : State V} (hu : Agrees shared s u k)
    (hsole : s.Sole a k) : u.Sole a k := by
  intro b hb p hp
  rw [hu.find] at hb
  refine (hsole b hb p hp).imp hu.forever fun hno a' b' hn hb' => ?_
  rw [hu.find] at hb'
  exact hno a' b' hn hb'

theorem contents_of_not_mem_keys (hk : k ∉ s.keys a) :
    s.contents a k = none :=
  contents_of_find_none (HashTable.find_eq_none_iff.mpr hk)

/-- A persist makes strings of pointers and changes no value. -/
theorem Good.persist (hs : Good shared s) (a : TsAddr) (t : ThreadId) :
    ∃ s', s.persist A a t = some s' ∧ Good shared s'
      ∧ s'.contents = s.contents := by
  obtain ⟨s', hrun, hgood, hc⟩ := loop_changes (s := s) (a := a)
    (c := s.contents a) (s.keys a) (fun k _ u hu => by
      rw [← hu.contents]
      exact hu.good.persistEntry (A := A) a t k)
    s (nodup_keys s a) hs fun k _ => hs.agrees k
  refine ⟨s', hrun, hgood, hc.trans ?_⟩
  funext a' k
  split
  case isTrue h => rw [h.1]
  case isFalse => rfl

/-- A table is freed entry by entry. -/
theorem Good.destroy (hs : Good shared s) (hsole : ∀ k, s.Sole a k) :
    ∃ s', s.destroy a = some s' ∧ Good shared s' ∧ s'.contents
      = fun a' k => if a' = a then none else s.contents a' k := by
  obtain ⟨s', hrun, hgood, hc⟩ := loop_changes (s := s) (c := fun _ => none)
    (s.keys a) (fun k _ u hu => hu.good.delete (hu.sole (hsole k)))
    s (nodup_keys s a) hs fun k _ => hs.agrees k
  refine ⟨s', hrun, hgood, hc.trans ?_⟩
  funext a' k
  by_cases ha : a' = a
  · by_cases hk : k ∈ s.keys a
    · rw [if_pos ⟨ha, hk⟩, if_pos ha]
    · rw [if_neg fun h => hk h.2, if_pos ha, ha]
      exact contents_of_not_mem_keys hk
  · rw [if_neg fun h => ha h.1, if_neg ha]

/-- What a round needs is as it was before the loop. -/
theorem Agrees.shareable {u : State V} {dst src : TsAddr} {overwrite : Bool}
    (hu : Agrees shared s u k)
    (hshare : s.Shareable shared dst src overwrite k) :
    u.Shareable shared dst src overwrite k := by
  intro b hb hover
  rw [hu.find] at hb hover
  obtain ⟨hsole, hnames⟩ := hshare b hb hover
  refine ⟨hu.sole hsole, fun p hp => (hnames p hp).imp hu.forever
    fun hno => ⟨hno.1, fun b' hb' => ?_⟩⟩
  rw [hu.find] at hb'
  exact hno.2 b' hb'

/-- A merge is its rounds, each on another key. -/
theorem Good.merge (hs : Good shared s) {dst src : TsAddr} {overwrite : Bool}
    (hshare : ∀ k, s.Shareable shared dst src overwrite k) :
    ∃ s', s.merge A dst src overwrite = some s' ∧ Good shared s'
      ∧ s'.contents = s.contents.apply (.merge dst src overwrite) := by
  obtain ⟨s', hrun, hgood, hc⟩ := loop_changes (s := s) (a := dst)
    (c := s.contents.merged dst src overwrite) (s.keys src)
    (fun k _ u hu => by
      have hsame : u.contents.merged dst src overwrite k
          = s.contents.merged dst src overwrite k := by
        unfold Contents.merged
        rw [hu.contents, hu.contents]
      rw [← hsame]
      exact hu.good.mergeEntry (A := A) (hu.shareable (hshare k)))
    s (nodup_keys s src) hs fun k _ => hs.agrees k
  refine ⟨s', hrun, hgood, hc.trans ?_⟩
  funext a k
  unfold Contents.apply Contents.merged
  by_cases ha : a = dst
  · subst ha
    by_cases hk : k ∈ s.keys src
    · simp [hk]
    · have hnone := contents_of_not_mem_keys hk
      simp [hk, hnone]
  · simp [ha]

-- =============================================================== runs

/-- More memory, and more interned strings. -/
theorem Good.extend (hs : Good shared s) (he : Extends s.memory h)
    {interned : Bytes → Option Nat}
    (hi : ∀ {bytes p}, interned bytes = some p →
      h.get p = some ⟨bytes, true⟩) :
    Good shared { s with memory := h, interned := interned }
      ∧ State.contents { s with memory := h, interned := interned }
        = s.contents := by
  have hsame : ∀ {a k b p}, (s.tables a).find k = some b → p ∈ b.strings →
      h.get p = s.memory.get p := fun hb hp => by
    obtain ⟨x, hx⟩ := hs.live hb hp
    rw [hx, he.live hx]
  refine ⟨⟨fun hb hp => ?_, fun hb => ?_, fun hb hp hb' hp' hx => ?_,
    fun hb => ?_, fun hp => ?_⟩, ?_⟩
  · exact (hs.live hb hp).imp fun x hx => he.live hx
  · exact apart_congr (fun p hp => hsame hb hp) (hs.apart hb)
  · exact hs.unique hb hp hb' hp' ((hsame hb hp).symm.trans hx)
  · exact (hs.key hb).keeps fun q x _ hx => he.live hx
  · exact hp.elim (fun hp => he.live (hs.interned (.inl hp))) hi
  · funext a k
    change ((s.tables a).find k).bind (fun b => restoreZval h b.value)
      = ((s.tables a).find k).bind fun b => restoreZval s.memory b.value
    cases hb : (s.tables a).find k with
    | none => rfl
    | some b =>
        exact restoreZval_congr fun p hp =>
          hsame hb (List.mem_append_right _ hp)

/-- Interning adds to the memory and to one table. -/
theorem Good.addInternedString (hs : Good shared s) (str : Arg) :
    Good shared (s.addInternedString A str).2
      ∧ (s.addInternedString A str).2.contents = s.contents := by
  unfold State.addInternedString
  split
  case h_1 => exact ⟨hs, rfl⟩
  case h_2 =>
    split
    case h_1 => exact ⟨hs, rfl⟩
    case h_2 =>
      have he := extends_place A s.memory ⟨str.bytes, true⟩
      refine hs.extend he fun {bytes p} hp => ?_
      by_cases hb : bytes = str.bytes
      · subst hb
        rw [Function.update_self] at hp
        obtain rfl := Option.some.inj hp
        exact Heap.get_place_self _ _ _
      · rw [Function.update_of_ne hb] at hp
        exact he.live (hs.interned (.inr hp))

/-- What a call may rely on: what `Allows` says where no names are shared,
and what `Spares` says where they are. -/
def State.Fits (shared : Prop) (s : State V) : Op V → Prop
  | .write a k v => k.Valid s.memory ∧ v.Valid s.memory ∧ s.Sole a k.key
  | .delete a k | .take a k => s.Sole a k
  | .merge dst src overwrite => ∀ k, s.Shareable shared dst src overwrite k
  | .destroy a => ∀ k, s.Sole a k
  | .addInternedString str => str.Valid s.memory
  | .persist _ _ | .cache _ => True

/-- The condition of the runs without shared names, -/
theorem Good.fits_of_allows (hs : Good False s) {op : Op V}
    (hallow : s.Allows op) : s.Fits False op := by
  cases op with
  | write a k v => exact ⟨hallow.1, hallow.2, hs.sole a k.key⟩
  | delete a k => exact hs.sole a k
  | take a k => exact hs.sole a k
  | merge dst src overwrite =>
      intro k b hb hover
      have hperm := hallow k b hb hover
      refine ⟨hs.sole dst k, fun p hp => .inl ?_⟩
      cases hv : b.value with
      | enumCase cls member =>
          obtain ⟨hcls, hmember⟩ := hperm cls member hv
          rw [hv] at hp
          rcases List.mem_cons.mp hp with rfl | hp
          · exact hcls
          · obtain rfl := List.mem_singleton.mp hp
            exact hmember
      | _ =>
          rw [hv] at hp
          cases hp
  | persist a t => exact trivial
  | destroy a => exact hs.sole a
  | addInternedString str => exact hallow
  | cache bytes => exact trivial

/-- A new entry replaces none. -/
theorem sole_of_find_none (hb : (s.tables a).find k = none) :
    s.Sole a k := fun b hb' => by
  rw [hb] at hb'
  cases hb'

/-- A merge that is spared, whatever the other tables share. -/
theorem State.Unshared.shareable {dst src : TsAddr} {overwrite : Bool}
    (hun : s.Unshared dst src overwrite)
    (hsole : overwrite = true → ∀ k, (s.tables src).contains k = true →
      s.Sole dst k) (k : Key) :
    s.Shareable True dst src overwrite k := by
  intro b hb hover
  by_cases hnone : (s.tables dst).find k = none
  · exact ⟨sole_of_find_none hnone, fun p _ =>
      .inr ⟨trivial, fun b' hb' => by rw [hnone] at hb'; cases hb'⟩⟩
  · have hover := hover.resolve_right hnone
    refine ⟨hsole hover k (by unfold HashTable.contains; rw [hb]; rfl),
      fun p hp => ?_⟩
    by_cases hforever : s.Forever p
    · exact .inl hforever
    · exact .inr ⟨trivial, fun b' hb' hp' =>
        hforever (hun hover k b b' hb hb' p hp hp')⟩

/-- and of those with them. -/
theorem fits_of_spares {op : Op V} (hspare : s.Spares op) :
    s.Fits True op := by
  cases op with
  | merge dst src overwrite =>
      exact hspare.1.shareable hspare.2
  | _ => exact hspare

/-- A call comes to its end, and does to the values what it would do to
plain tables. -/
theorem Good.step (hs : Good shared s) {op : Op V} (hfit : s.Fits shared op) :
    ∃ s', s.step A op = some s' ∧ Good shared s'
      ∧ s'.contents = s.contents.apply op := by
  cases op with
  | write a k v =>
      obtain ⟨hk, hv, hsole⟩ := hfit
      obtain ⟨s', hstep, hc⟩ := hs.write (A := A) hsole hk hv
      exact ⟨s', hstep, hc.good, hc.contents⟩
  | delete a k =>
      obtain ⟨s', hstep, hc⟩ := hs.delete hfit
      exact ⟨s', hstep, hc.good, hc.contents⟩
  | take a k =>
      obtain ⟨s', hstep, hc⟩ := hs.take hfit
      exact ⟨s', hstep, hc.good, hc.contents⟩
  | merge dst src overwrite => exact hs.merge hfit
  | persist a t => exact hs.persist a t
  | destroy a => exact hs.destroy hfit
  | addInternedString str => exact ⟨_, rfl, hs.addInternedString str⟩
  | cache bytes =>
      have he := extends_place A s.memory ⟨bytes, true⟩
      exact ⟨_, rfl, hs.extend he fun hp => he.live (hs.interned (.inr hp))⟩

/-- Every run whose calls are allowed. -/
theorem Good.run (hs : Good False s) {ops : List (Op V)}
    (hallow : s.Allowed A ops) :
    ∃ s', s.run A ops = some s' ∧ Good False s'
      ∧ s'.contents = ops.foldl Contents.apply s.contents := by
  induction ops generalizing s with
  | nil => exact ⟨s, rfl, hs, rfl⟩
  | cons op ops ih =>
      obtain ⟨u, hstep, hu, hc⟩ :=
        hs.step (A := A) (hs.fits_of_allows hallow.1)
      obtain ⟨s', hrun, hs', hcontents⟩ := ih hu (hallow.2 u hstep)
      refine ⟨s', foldlM_cons_iff.mpr ⟨u, hstep, hrun⟩, hs', ?_⟩
      rw [hcontents, hc]
      rfl

/-- Every run whose calls spare shared names. -/
theorem Good.spared (hs : Good True s) {ops : List (Op V)}
    (hspared : s.Spared A ops) :
    ∃ s', s.run A ops = some s' ∧ Good True s' := by
  induction ops generalizing s with
  | nil => exact ⟨s, rfl, hs⟩
  | cons op ops ih =>
      obtain ⟨u, hstep, hu, -⟩ :=
        hs.step (A := A) (fits_of_spares hspared.1)
      obtain ⟨s', hrun, hs'⟩ := ih hu (hspared.2 u hstep)
      exact ⟨s', foldlM_cons_iff.mpr ⟨u, hstep, hrun⟩, hs'⟩

/-- The tables are empty at first. -/
theorem good_init {engine : Bytes → Option Nat}
    (hengine : ∀ bytes p, engine bytes = some p →
      h.get p = some ⟨bytes, true⟩) :
    Good shared (State.init h engine : State V) where
  live hb := by cases hb
  apart hb := by cases hb
  unique hb := by cases hb
  key hb := by cases hb
  interned hp := hp.elim (hengine _ _) fun hp => by cases hp

/-- The strings of the shared tables, over every run of any threads that
merges no enum case with a name that its table owns. No call uses a
string that was freed; every read finds what plain tables of values have;
and two entries have a string in common only if it is permanent. -/
theorem shared_strings_refine {engine : Bytes → Option Nat}
    (hengine : ∀ bytes p, engine bytes = some p →
      h.get p = some ⟨bytes, true⟩)
    {ops : List (Op V)} (hallow : (State.init h engine).Allowed A ops) :
    ∃ s', (State.init h engine).run A ops = some s'
      ∧ (∀ a k, s'.read a k
        = some (ops.foldl Contents.apply (fun _ _ => none) a k))
      ∧ ∀ a k b a' k' b' p, (s'.tables a).find k = some b →
        (s'.tables a').find k' = some b' → p ∈ b.strings → p ∈ b'.strings →
        ∃ x, s'.memory.get p = some x
          ∧ (x.permanent = true ∨ (a' = a ∧ k' = k)) := by
  obtain ⟨s', hrun, hs', hcontents⟩ := (good_init hengine).run hallow
  refine ⟨s', hrun, fun a k => ?_, fun a k b a' k' b' p hb hb' hp hp' => ?_⟩
  · rw [hs'.read, hcontents]
    rfl
  · obtain ⟨x, hx⟩ := hs'.live hb hp
    refine ⟨x, hx, ?_⟩
    cases hperm : x.permanent with
    | true => exact .inl rfl
    | false =>
        exact .inr ((hs'.unique hb hp hb' hp' hx hperm).resolve_right
          fun h => h.1)

/-- A string is written, its thread ends, and it is merged into another
table before the first one forgets it. -/
def handOver : List (Op Unit) :=
  [.write 0 (.str ⟨[97], none⟩) (.string 5 ⟨[98], none⟩), .persist 0 5,
    .merge 1 0 false, .delete 0 (.str [97])]

theorem allowed_handOver :
    (State.init Heap.empty fun _ => none).Allowed Allocator.recycle
      handOver := by
  have hown : ∀ bytes, Arg.Valid (Heap.empty : Memory) ⟨bytes, none⟩ :=
    fun _ _ hp => by cases hp
  refine ⟨⟨hown _, hown _⟩, fun s₁ h₁ => ?_⟩
  obtain rfl := Option.some.inj h₁
  refine ⟨trivial, fun s₂ h₂ => ?_⟩
  obtain rfl := Option.some.inj h₂
  refine ⟨fun k b hb _ cls member hv => ?_, fun s₃ _ =>
    ⟨trivial, fun _ _ => trivial⟩⟩
  obtain heq := List.mem_singleton.mp (HashTable.find_eq_some_iff.mp hb)
  obtain rfl := (Prod.mk.inj heq).2
  cases hv

theorem shared_strings_refine_handOver :
    ∃ s', (State.init Heap.empty fun _ => none).run Allocator.recycle handOver
        = some s'
      ∧ s'.read 0 (.str [97]) = some none
      ∧ s'.read 1 (.str [97]) = some (some (.string [98])) := by
  obtain ⟨s', hrun, hread, -⟩ := shared_strings_refine
    (fun _ _ hp => by cases hp) allowed_handOver
  exact ⟨s', hrun, hread _ _, hread _ _⟩

-- ======================================================= merged twice

/-- A value with a string that is gone cannot be read. -/
theorem restoreZval_dead {v : Saved V} {p : Nat} (hmem : p ∈ v.strings)
    (hp : h.get p = none) : restoreZval h v = none := by
  cases v with
  | plain v => cases hmem
  | stringPtr owner bytes => cases hmem
  | string q =>
      obtain rfl := List.mem_singleton.mp hmem
      simp only [restoreZval, hp, Option.map_none]
  | enumCase cls member =>
      rcases List.mem_cons.mp hmem with rfl | hmem
      · simp only [restoreZval, hp, Option.bind_none]
      · obtain rfl := List.mem_singleton.mp hmem
        simp only [restoreZval, hp, Option.map_none, Option.bind_fun_none]

/-- Two entries whose values have a string in common that is not
permanent: when one of them is deleted, the other can be neither read nor
deleted. -/
theorem shared_name_dangles {a' : TsAddr} {k' : Key} {b b' : Bucket V}
    {p : Nat} (hne : ¬ (a' = a ∧ k' = k))
    (hb : (s.tables a).find k = some b)
    (hb' : (s.tables a').find k' = some b') (hp : p ∈ b.value.strings)
    (hp' : p ∈ b'.value.strings) (hown : Owned ZString.permanent s.memory p)
    (hdel : s.delete a k = some s') :
    s'.read a' k' = none ∧ s'.delete a' k' = none := by
  unfold State.delete at hdel
  rw [hb] at hdel
  obtain ⟨h₁, hfree, rfl⟩ := Option.map_eq_some_iff.mp hdel
  rw [freeBucket_eq] at hfree
  have hdead : h₁.get p = none :=
    dropAll_owned (List.mem_append_right _ hp) hown hfree
  have hfind : ((s.setTable a h₁ ((s.tables a).del k)).tables a').find k'
      = some b' := by
    rw [find_setTable fun hn => HashTable.find_del_ne _ hn, if_neg hne]
    exact hb'
  constructor
  · unfold State.read
    rw [hfind]
    have hrestore := restoreZval_dead hp' hdead
    simp only [State.setTable, hrestore, Option.map_none,
      Option.bind_fun_none]
  · unfold State.delete
    rw [hfind]
    have hbucket : freeBucket h₁ b' = none := (freeBucket_eq h₁ b').trans
      (dropAll_dead (List.mem_append_right _ hp') hdead)
    simp only [State.setTable, hbucket, Option.map_none]

/-- A copy of what can be read: nothing is freed, names are shared, and it
reads as the same. -/
theorem hardCopyStorage_ends {v : Saved V} {c : Content V}
    (hc : restoreZval h v = some c) :
    ∃ r, hardCopyStorage A h v = some r ∧ Extends h r.2
      ∧ (∀ cls member, v = .enumCase cls member → r.1 = v)
      ∧ restoreZval r.2 r.1 = some c := by
  cases v with
  | plain v => exact ⟨_, rfl, .refl h, fun _ _ hv => (by cases hv), hc⟩
  | stringPtr owner bytes =>
      obtain rfl := Option.some.inj hc
      have hown : Arg.Valid h ⟨bytes, none⟩ := fun _ hp => by cases hp
      have hf := saveString_fresh (A := A) hown
      exact ⟨_, rfl, hf.keeps, fun _ _ hv => (by cases hv), hf.restores⟩
  | string p =>
      obtain ⟨x, hx, rfl⟩ := Option.map_eq_some_iff.mp hc
      obtain ⟨str, hstr, hb, hvalid⟩ := argAt_valid hx
      have hf := saveString_fresh (A := A) hvalid
      refine ⟨_, congrArg (Option.map _) hstr, hf.keeps,
        fun _ _ hv => (by cases hv), ?_⟩
      rw [← hb]
      exact hf.restores
  | enumCase cls member => exact ⟨_, rfl, .refl h, fun _ _ _ => rfl, hc⟩

/-- An update frees the old value of its entry and nothing else. -/
theorem update_ends {t : HashTable (Bucket V)} {ka : KeyArg} (v : Saved V)
    (hlive : ∀ b, t.find ka.key = some b → ∀ p ∈ b.value.strings,
      ∃ x, h.get p = some x)
    (hapart : ∀ b, t.find ka.key = some b →
      b.value.strings.Pairwise (Apart h)) (hka : ka.Valid h) :
    ∃ h' kp, updateSharedProperty A h t ka v
        = some (h', t.update true ka.key ⟨kp, v⟩)
      ∧ Keeps (fun p => ∃ b, t.find ka.key = some b
        ∧ p ∈ b.value.strings) h h' := by
  unfold updateSharedProperty
  cases hb : t.find ka.key with
  | none =>
      exact ⟨_, _, rfl, (newKey_fresh hka).1.keeps _⟩
  | some b =>
      obtain ⟨h', hfree, hk⟩ := dropAll_keeps (hlive b hb) (hapart b hb)
      exact ⟨h', b.key,
        congrArg (Option.map _) ((storageDtor_eq h b.value).trans hfree),
        hk.mono fun p hp => ⟨b, rfl, hp⟩⟩

/-- In the middle of a merge, with the rounds of `ks` to come: the source
is as it was, and so is what is left of the destination. -/
structure MergeRest (s u : State V) (dst src : TsAddr) (ks : List Key) :
    Prop where
  table : u.tables src = s.tables src
  source : ∀ {k b p}, (s.tables src).find k = some b → p ∈ b.strings →
    u.memory.get p = s.memory.get p
  find : ∀ {k}, k ∈ ks → (u.tables dst).find k = (s.tables dst).find k
  old : ∀ {k b p}, k ∈ ks → (s.tables dst).find k = some b →
    p ∈ b.strings → u.memory.get p = s.memory.get p

/-- The names that a merge takes from an enum case are the source's. -/
def Shares (s u : State V) (dst src : TsAddr) (overwrite : Bool)
    (k : Key) : Prop :=
  ∀ b cls member, (s.tables src).find k = some b →
    b.value = .enumCase cls member →
    overwrite = true ∨ (s.tables dst).find k = none →
    ∃ b', (u.tables dst).find k = some b' ∧ b'.value = b.value

/-- One round, which frees what the destination had and nothing else. -/
theorem MergeRest.round (overwrite : Bool) {u : State V}
    {dst src : TsAddr} {ks : List Key} (hs : Good False s) (hne : src ≠ dst)
    (hu : MergeRest s u dst src (k :: ks)) (hk : k ∉ ks) :
    ∃ u', u.mergeEntry A dst src overwrite k = some u'
      ∧ MergeRest s u' dst src ks
      ∧ (∀ k', k' ≠ k → (u'.tables dst).find k' = (u.tables dst).find k')
      ∧ Shares s u' dst src overwrite k := by
  have hfind := hu.find (k := k) List.mem_cons_self
  have hrest : MergeRest s u dst src ks := ⟨hu.table, hu.source,
    fun hk => hu.find (List.mem_cons_of_mem _ hk),
    fun hk => hu.old (List.mem_cons_of_mem _ hk)⟩
  unfold State.mergeEntry
  rw [hu.table]
  cases hb : (s.tables src).find k with
  | none =>
      refine ⟨u, rfl, hrest, fun _ _ => rfl, fun b _ _ hb' => ?_⟩
      rw [hb] at hb'
      cases hb'
  | some b =>
      by_cases hskip : (!overwrite && (u.tables dst).contains k) = true
      · simp only [hskip, if_true]
        refine ⟨u, rfl, hrest, fun _ _ => rfl, fun _ _ _ _ _ hover => ?_⟩
        unfold HashTable.contains at hskip
        rw [hfind] at hskip
        rcases hover with h | h <;> simp [h] at hskip
      · obtain ⟨c, hc, -⟩ := hs.contents_of_find hb
        have hc' : restoreZval u.memory b.value = some c :=
          (restoreZval_congr fun p hp =>
            hu.source hb (List.mem_append_right _ hp)).trans hc
        have hkey : KeyIs u.memory k b.key :=
          (hs.key hb).keeps fun q x hq hx => by
            refine (hu.source hb (List.mem_append_left _ ?_)).trans hx
            rw [hq]
            exact List.mem_cons_self
        obtain ⟨ka, hka, rfl, hvalid⟩ := bucketKey_valid hkey
        obtain ⟨r, hr, he, henum, -⟩ := hardCopyStorage_ends (A := A) hc'
        have hsame : ∀ b', (u.tables dst).find ka.key = some b' →
            ∀ p ∈ b'.value.strings, r.2.get p = s.memory.get p :=
          fun b' hb' p hp => by
            have hp' := List.mem_append_right b'.key.toList hp
            obtain ⟨x, hx⟩ := hs.live (hfind.symm.trans hb') hp'
            rw [hx]
            exact he.live ((hu.old List.mem_cons_self
              (hfind.symm.trans hb') hp').trans hx)
        obtain ⟨h', kp, hq, hkeep⟩ := update_ends (A := A)
          (t := u.tables dst) r.1
          (fun b' hb' p hp => by
            rw [hsame b' hb' p hp]
            exact hs.live (hfind.symm.trans hb')
              (List.mem_append_right _ hp))
          (fun b' hb' => apart_congr (hsame b' hb') (List.pairwise_append.mp
            (hs.apart (hfind.symm.trans hb'))).2.1)
          (by
            cases ka with
            | long n => trivial
            | str str => exact fun p hp => he.live (hvalid p hp))
        -- what other entries had is not freed
        have hkept : ∀ {a' k' b' p}, ¬ (a' = dst ∧ k' = ka.key) →
            (s.tables a').find k' = some b' → p ∈ b'.strings →
            u.memory.get p = s.memory.get p →
            h'.get p = s.memory.get p := by
          intro a' k' b' p hn hb' hp hsame'
          obtain ⟨x, hx⟩ := hs.live hb' hp
          rw [hx]
          refine hkeep.get (he.live (hsame'.trans hx)) ?_
          cases hperm : x.permanent with
          | true => exact .inl rfl
          | false =>
              refine .inr ?_
              rintro ⟨b₂, hb₂, hp₂⟩
              exact hn ((hs.unique (hfind.symm.trans hb₂)
                (List.mem_append_right _ hp₂) hb' hp hx hperm).resolve_right
                  fun h => h.1)
        refine ⟨u.setTable dst h' ((u.tables dst).update true ka.key
            ⟨kp, r.1⟩), ?_, ⟨?_, ?_, ?_, ?_⟩, ?_, ?_⟩
        · refine (if_neg hskip).trans ?_
          simp only [hka, hr, hq, Option.bind_some, Option.map_some]
        · exact (Function.update_of_ne hne _ _).trans hu.table
        · exact fun hb' hp => hkept (fun h => hne h.1) hb' hp
            (hu.source hb' hp)
        · intro k' hk'
          have hn : k' ≠ ka.key := fun heq => hk (heq ▸ hk')
          rw [find_setTable fun hn => HashTable.find_update_ne true _ _ hn,
            if_neg fun h => hn h.2]
          exact hu.find (List.mem_cons_of_mem _ hk')
        · intro k' b' p hk' hb' hp
          exact hkept (fun h => hk (h.2 ▸ hk')) hb' hp
            (hu.old (List.mem_cons_of_mem _ hk') hb' hp)
        · intro k' hn
          rw [find_setTable fun hn => HashTable.find_update_ne true _ _ hn,
            if_neg fun h => hn h.2]
        · intro b' cls member hb' hv _
          obtain rfl := Option.some.inj (hb.symm.trans hb')
          refine ⟨⟨kp, r.1⟩, ?_, henum cls member hv⟩
          rw [find_setTable fun hn => HashTable.find_update_ne true _ _ hn,
            if_pos ⟨rfl, rfl⟩, HashTable.find_update_self]

/-- All rounds, by induction on those to come. -/
theorem MergeRest.rounds (overwrite : Bool) {dst src : TsAddr}
    (hs : Good False s) (hne : src ≠ dst) (ks : List Key) :
    ∀ u, ks.Nodup → MergeRest s u dst src ks →
      ∃ u', ks.foldlM (State.mergeEntry A dst src overwrite) u = some u'
        ∧ MergeRest s u' dst src []
        ∧ (∀ k, k ∉ ks → (u'.tables dst).find k = (u.tables dst).find k)
        ∧ ∀ k ∈ ks, Shares s u' dst src overwrite k := by
  induction ks with
  | nil =>
      exact fun u _ hu =>
        ⟨u, rfl, hu, fun _ _ => rfl, fun _ hk => by cases hk⟩
  | cons k ks ih =>
      intro u hnd hu
      obtain ⟨hnot, hnd⟩ := List.nodup_cons.mp hnd
      obtain ⟨u₁, hround, hu₁, hsame₁, hshares⟩ :=
        hu.round (A := A) overwrite hs hne hnot
      obtain ⟨u', hrun, hu', hsame, hall⟩ := ih u₁ hnd hu₁
      refine ⟨u', foldlM_cons_iff.mpr ⟨u₁, hround, hrun⟩, hu',
        fun k' hk' => ?_, fun k' hk' => ?_⟩
      · obtain ⟨hn, hk'⟩ := not_or.mp (List.mem_cons.not.mp hk')
        exact (hsame k' hk').trans (hsame₁ k' hn)
      · rcases List.mem_cons.mp hk' with rfl | hk'
        · intro b cls member hb hv hover
          rw [hsame k' hnot]
          exact hshares b cls member hb hv hover
        · exact hall k' hk'

/-- What `shared_strings_refine` leaves out. Where a merge between two
tables copies an enum case whose class name the source's table owns, the
merge ends, and the source can delete its entry; after that the
destination's entry can be neither read nor deleted. -/
theorem merged_enum_dangles {engine : Bytes → Option Nat}
    (hengine : ∀ bytes p, engine bytes = some p →
      h.get p = some ⟨bytes, true⟩)
    {ops : List (Op V)} (hallow : (State.init h engine).Allowed A ops)
    (hrun : (State.init h engine).run A ops = some s) (dst src : TsAddr)
    (hne : src ≠ dst) (overwrite : Bool) {b : Bucket V}
    {cls member : Nat} {name : Bytes} (hb : (s.tables src).find k = some b)
    (hv : b.value = .enumCase cls member)
    (hown : s.memory.get cls = some ⟨name, false⟩)
    (hover : overwrite = true ∨ (s.tables dst).find k = none) :
    ∃ s₁ s₂, s.merge A dst src overwrite = some s₁
      ∧ s₁.delete src k = some s₂
      ∧ s₂.read dst k = none ∧ s₂.delete dst k = none := by
  obtain ⟨s', hrun', hs, -⟩ := (good_init hengine).run hallow
  obtain rfl := Option.some.inj (hrun.symm.trans hrun')
  obtain ⟨s₁, hmerge, hrest, -, hshares⟩ :=
    MergeRest.rounds (A := A) overwrite hs hne (s.keys src) s
      (nodup_keys s src) ⟨rfl, fun _ _ => rfl, fun _ => rfl, fun _ _ _ => rfl⟩
  have hk : k ∈ s.keys src := List.mem_map.mpr
    ⟨(k, b), HashTable.find_eq_some_iff.mp hb, rfl⟩
  obtain ⟨b', hb', hv'⟩ := hshares k hk b cls member hb hv hover
  have hb₁ : (s₁.tables src).find k = some b := by
    rw [hrest.table]
    exact hb
  have hmem : cls ∈ b.value.strings := by
    rw [hv]
    exact List.mem_cons_self
  have hlive : ∀ p ∈ b.strings, ∃ x, s₁.memory.get p = some x :=
    fun p hp => by
      rw [hrest.source hb hp]
      exact hs.live hb hp
  obtain ⟨h₂, hfree, -⟩ := dropAll_keeps hlive
    (apart_congr (fun p hp => hrest.source hb hp) (hs.apart hb))
  have hdel : s₁.delete src k
      = some (s₁.setTable src h₂ ((s₁.tables src).del k)) := by
    unfold State.delete
    rw [hb₁]
    exact congrArg (Option.map _) ((freeBucket_eq _ b).trans hfree)
  have hname := hrest.source hb (List.mem_append_right _ hmem)
  obtain ⟨hread, hagain⟩ := shared_name_dangles (fun h => hne h.1.symm) hb₁
    hb' hmem (by rw [hv']; exact hmem) (fun x hx => by
      rw [hname, hown] at hx
      rw [← Option.some.inj hx]) hdel
  exact ⟨s₁, _, hmerge, hdel, hread, hagain⟩

/-- A case of an enum that a script declares, in one table. -/
def storedCase : List (Op Unit) :=
  [.write 0 (.long 0) (.enumCase ⟨[69], none⟩ ⟨[67], none⟩)]

theorem merged_enum_dangles_storedCase :
    ∃ s s₁ s₂, (State.init Heap.empty fun _ => none).run Allocator.recycle
        storedCase = some s
      ∧ s.merge Allocator.recycle 1 0 true = some s₁
      ∧ s₁.delete 0 (.long 0) = some s₂
      ∧ s₂.read 1 (.long 0) = none ∧ s₂.delete 1 (.long 0) = none := by
  have hnone : ∀ bytes, Arg.Valid (Heap.empty : Memory) ⟨bytes, none⟩ :=
    fun _ _ hp => by cases hp
  have hallow : (State.init Heap.empty fun _ => none).Allowed
      Allocator.recycle storedCase :=
    ⟨⟨trivial, hnone _, hnone _⟩, fun _ _ => trivial⟩
  obtain ⟨s₁, s₂, hmerge, hdel, hread, hagain⟩ := merged_enum_dangles
    (k := .long 0) (fun _ _ hp => by cases hp) hallow rfl 1 0 (by decide)
    true rfl rfl rfl (.inl rfl)
  exact ⟨_, s₁, s₂, rfl, hmerge, hdel, hread, hagain⟩

-- =========================================================== interning

-- A caller may pass what it likes here: permanent strings stay, and
-- nothing else is said of the memory.

/-- Permanent strings are as they were. -/
abbrev Stays (h h' : Memory) : Prop := Keeps (fun _ => True) h h'

theorem Stays.trans {h'' : Memory} (h₁ : Stays h h') (h₂ : Stays h' h'') :
    Stays h h'' :=
  (Heap.Keeps.trans h₁ h₂).mono fun _ _ => trivial

theorem saveString_extends (A : Allocator) (h : Memory) (str : Arg) :
    Extends h (saveString A h str).2 := by
  unfold saveString
  split
  case h_1 => exact .refl h
  case h_2 => exact extends_place A h _

theorem newKey_extends (A : Allocator) (h : Memory) (ka : KeyArg) :
    Extends h (newKey A h ka).2 := by
  cases ka with
  | long n => exact .refl h
  | str str => exact saveString_extends A h str

theorem saveZval_extends (A : Allocator) (h : Memory) (v : Written V) :
    Extends h (saveZval A h v).2 := by
  cases v with
  | plain v => exact .refl h
  | string owner str =>
      unfold saveZval
      dsimp only
      split <;> exact .refl h
  | enumCase cls member =>
      exact (saveString_extends A h cls).trans (saveString_extends A _ member)

/-- Copies allocate, whatever they copy. -/
theorem hardCopyStorage_extends {v : Saved V} {r : Saved V × Memory}
    (hr : hardCopyStorage A h v = some r) : Extends h r.2 := by
  cases v with
  | plain v =>
      obtain rfl := Option.some.inj hr
      exact .refl h
  | string p =>
      obtain ⟨str, -, rfl⟩ := Option.map_eq_some_iff.mp hr
      exact saveString_extends A h str
  | stringPtr owner bytes =>
      obtain rfl := Option.some.inj hr
      exact saveString_extends A h _
  | enumCase cls member =>
      obtain rfl := Option.some.inj hr
      exact .refl h

/-- What is permanent is not freed. -/
theorem storageDtor_stays {v : Saved V} (hd : storageDtor h v = some h') :
    Stays h h' :=
  dropAll_stays ((storageDtor_eq h v).symm.trans hd)

theorem updateSharedProperty_stays {t : HashTable (Bucket V)} {ka : KeyArg}
    {v : Saved V} {q : Memory × HashTable (Bucket V)}
    (hq : updateSharedProperty A h t ka v = some q) : Stays h q.1 := by
  unfold updateSharedProperty at hq
  split at hq
  case h_1 =>
    obtain ⟨_, hd, rfl⟩ := Option.map_eq_some_iff.mp hq
    exact storageDtor_stays hd
  case h_2 =>
    obtain rfl := Option.some.inj hq
    exact (newKey_extends A h ka).keeps _

/-- No call takes a string out of the two tables, and what it adds is
permanent, as it stays. -/
structure Grows (s s' : State V) : Prop where
  stays : Stays s.memory s'.memory
  engine : s'.engine = s.engine
  interned : ∀ {bytes p}, s.interned bytes = some p →
    s'.interned bytes = some p
  added : ∀ {bytes p}, s'.interned bytes = some p →
    s.interned bytes = some p ∨ s'.memory.get p = some ⟨bytes, true⟩

theorem Grows.refl (s : State V) : Grows s s :=
  ⟨(Extends.refl _).keeps _, rfl, id, .inl⟩

theorem Grows.trans {s'' : State V} (h₁ : Grows s s') (h₂ : Grows s' s'') :
    Grows s s'' where
  stays := h₁.stays.trans h₂.stays
  engine := h₂.engine.trans h₁.engine
  interned hp := h₂.interned (h₁.interned hp)
  added hp := (h₂.added hp).elim
    (fun hp => (h₁.added hp).imp_right fun hp => h₂.stays.get hp (.inl rfl))
    .inr

theorem Stays.grows (hk : Stays s.memory h) (a : TsAddr)
    (t : HashTable (Bucket V)) : Grows s (s.setTable a h t) :=
  ⟨hk, rfl, id, .inl⟩

/-- Loops, by their rounds. -/
theorem Grows.loop {f : State V → Key → Option (State V)} {ks : List Key}
    (hf : ∀ {u k u'}, f u k = some u' → Grows u u')
    (h : ks.foldlM f s = some s') : Grows s s' :=
  foldlM_induct (P := Grows s) ks (fun _ hu h => hu.trans (hf h)) (.refl s) h

/-- No store operation takes an interned string away. -/
theorem delete_grows (h : s.delete a k = some s') : Grows s s' := by
  unfold State.delete at h
  split at h
  case h_1 =>
    obtain rfl := Option.some.inj h
    exact .refl s
  case h_2 =>
    obtain ⟨_, hfree, rfl⟩ := Option.map_eq_some_iff.mp h
    exact Stays.grows
      (dropAll_stays ((freeBucket_eq _ _).symm.trans hfree)) ..

theorem mergeEntry_grows {dst src : TsAddr} {overwrite : Bool}
    (h : s.mergeEntry A dst src overwrite k = some s') : Grows s s' := by
  unfold State.mergeEntry at h
  split at h
  case h_1 =>
    obtain rfl := Option.some.inj h
    exact .refl s
  case h_2 =>
    split at h
    case isTrue =>
      obtain rfl := Option.some.inj h
      exact .refl s
    case isFalse =>
      obtain ⟨_, -, h⟩ := Option.bind_eq_some_iff.mp h
      obtain ⟨_, hr, h⟩ := Option.bind_eq_some_iff.mp h
      obtain ⟨_, hq, rfl⟩ := Option.map_eq_some_iff.mp h
      exact Stays.grows (.trans ((hardCopyStorage_extends hr).keeps _)
        (updateSharedProperty_stays hq)) ..

theorem persistEntry_grows {t : ThreadId}
    (h : s.persistEntry A a t k = some s') : Grows s s' := by
  unfold State.persistEntry at h
  split at h
  case h_1 =>
    split at h
    case isTrue =>
      obtain rfl := Option.some.inj h
      exact Stays.grows ((saveString_extends A _ _).keeps _) ..
    case isFalse =>
      obtain rfl := Option.some.inj h
      exact .refl s
  case h_2 =>
    obtain rfl := Option.some.inj h
    exact .refl s

theorem addInternedString_grows (s : State V) (str : Arg) :
    Grows s (s.addInternedString A str).2 := by
  unfold State.addInternedString State.findInternedString
  split
  case h_1 => exact .refl s
  case h_2 =>
    split
    case h_1 => exact .refl s
    case h_2 hnone =>
      refine ⟨(extends_place A _ _).keeps _, rfl, fun {bytes p} hp => ?_,
        fun {bytes p} hp => ?_⟩
      · -- a new string is one that neither table has
        refine (Function.update_of_ne (fun heq => ?_) _ _).trans hp
        subst heq
        split at hnone
        case h_1 => cases hnone
        case h_2 =>
          rw [hp] at hnone
          cases hnone
      · change Function.update s.interned str.bytes _ bytes = some p at hp
        by_cases hb : bytes = str.bytes
        · subst hb
          rw [Function.update_self] at hp
          obtain rfl := Option.some.inj hp
          exact .inr (Heap.get_place_self _ _ _)
        · rw [Function.update_of_ne hb] at hp
          exact .inl hp

/-- What one call does; `run_grows` is the run. -/
theorem step_grows {op : Op V} (h : s.step A op = some s') :
    Grows s s' := by
  cases op with
  | write a k v =>
      obtain ⟨_, hq, rfl⟩ := Option.map_eq_some_iff.mp h
      exact Stays.grows (.trans ((saveZval_extends A _ v).keeps _)
        (updateSharedProperty_stays hq)) ..
  | delete a k => exact delete_grows h
  | take a k =>
      obtain ⟨_, -, h⟩ := Option.bind_eq_some_iff.mp h
      exact delete_grows h
  | merge dst src overwrite => exact .loop mergeEntry_grows h
  | persist a t => exact .loop persistEntry_grows h
  | destroy a => exact .loop delete_grows h
  | addInternedString str =>
      obtain rfl := Option.some.inj h
      exact addInternedString_grows s str
  | cache bytes =>
      obtain rfl := Option.some.inj h
      exact ⟨(extends_place A _ _).keeps _, rfl, id, .inl⟩

theorem run_grows {ops : List (Op V)} (h : s.run A ops = some s') :
    Grows s s' :=
  foldlM_induct (P := Grows s) ops
    (fun _ hu h => hu.trans (step_grows h)) (.refl s) h

/-- What was found is found again. -/
theorem Grows.findInternedString (hg : Grows s s') {bytes : Bytes} {p : Nat}
    (hp : s.findInternedString bytes = some p) :
    s'.findInternedString bytes = some p := by
  unfold State.findInternedString at hp ⊢
  rw [hg.engine]
  cases he : s.engine bytes with
  | some q =>
      rw [he] at hp
      exact hp
  | none =>
      rw [he] at hp
      exact hg.interned hp

/-- What is found in a run is permanent and has the text. -/
theorem Grows.found {engine : Bytes → Option Nat}
    (hg : Grows (State.init h engine) s)
    (hengine : ∀ bytes p, engine bytes = some p →
      h.get p = some ⟨bytes, true⟩) {bytes : Bytes} {p : Nat}
    (hp : s.findInternedString bytes = some p) :
    s.memory.get p = some ⟨bytes, true⟩ := by
  unfold State.findInternedString at hp
  rw [hg.engine] at hp
  cases he : engine bytes with
  | some q =>
      rw [show (State.init h engine : State V).engine bytes = some q from he]
        at hp
      obtain rfl := Option.some.inj hp
      exact hg.stays.get (hengine bytes q he) (.inl rfl)
  | none =>
      rw [show (State.init h engine : State V).engine bytes = none from he]
        at hp
      exact (hg.added hp).resolve_left nofun

/-- What was added is found. -/
theorem findInternedString_add (s : State V) {str : Arg}
    (hstr : str.permanentAt = none) :
    (s.addInternedString A str).2.findInternedString str.bytes
      = some (s.addInternedString A str).1 := by
  unfold State.addInternedString
  rw [hstr]
  cases hp : s.findInternedString str.bytes with
  | some p => exact hp
  | none =>
      unfold State.findInternedString at hp ⊢
      cases he : s.engine str.bytes with
      | some q =>
          rw [he] at hp
          cases hp
      | none =>
          simp only [Function.update_self]

/-- A text that is interned is not interned again. -/
theorem addInternedString_found {str : Arg} {p : Nat}
    (hstr : str.permanentAt = none)
    (hp : s.findInternedString str.bytes = some p) :
    (s.addInternedString A str).1 = p := by
  unfold State.addInternedString
  rw [hstr, hp]

/-- Interning is canonical. In every run, whichever threads ask and
whatever calls come between, two strings of one text that are not
permanent get the same answer, and the string there is permanent and has
that text for as long as the process runs. -/
theorem interned_canonical {engine : Bytes → Option Nat}
    (hengine : ∀ bytes p, engine bytes = some p →
      h.get p = some ⟨bytes, true⟩)
    {before after : List (Op V)} {str str' : Arg} {s₁ s₂ : State V}
    (hbefore : (State.init h engine).run A before = some s₁)
    (hafter : (s₁.addInternedString A str).2.run A after = some s₂)
    (hstr : str.permanentAt = none) (hstr' : str'.permanentAt = none)
    (hsame : str'.bytes = str.bytes) :
    (s₂.addInternedString A str').1 = (s₁.addInternedString A str).1
      ∧ s₂.memory.get (s₁.addInternedString A str).1
        = some ⟨str.bytes, true⟩ := by
  have hadd := addInternedString_grows (A := A) s₁ str
  have hfind :=
    (run_grows hafter).findInternedString (findInternedString_add s₁ hstr)
  exact ⟨addInternedString_found hstr' (by rw [hsame]; exact hfind),
    (((run_grows hbefore).trans hadd).trans (run_grows hafter)).found
      hengine hfind⟩

/-- A table that is gone before the string is interned again. -/
def between : List (Op Unit) :=
  [.write 0 (.str ⟨[97], none⟩) (.plain ()), .destroy 0]

theorem interned_canonical_between :
    let s := (State.init Heap.empty fun _ => none : State Unit)
    let str : Arg := ⟨[97], none⟩
    ∃ s₂, (s.addInternedString Allocator.recycle str).2.run
        Allocator.recycle between = some s₂
      ∧ (s₂.addInternedString Allocator.recycle str).1
        = (s.addInternedString Allocator.recycle str).1 := by
  intro s str
  have hbefore : s.run Allocator.recycle [] = some s := rfl
  obtain ⟨s₂, hafter⟩ : ∃ s₂,
      (s.addInternedString Allocator.recycle str).2.run Allocator.recycle
        between = some s₂ := ⟨_, rfl⟩
  exact ⟨s₂, hafter, (interned_canonical (fun _ _ hp => by cases hp) hbefore
    hafter rfl rfl rfl).1⟩

end PmmpThread.Model.SharedStrings
