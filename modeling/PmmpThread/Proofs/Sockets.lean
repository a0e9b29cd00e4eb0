/-
Who closes the descriptor of a socket.

# Sockets against numbers

The table has numbers, and what it should say is about sockets. Stored
sockets always have their number in it (`Inv`), so their objects never
close. The other way round it is true as long as no new socket is given a
number from the table: then an object of a socket that was never stored is
the only one with its number, and the number is not in the table
(`Alone`). The first new socket with a number from the table breaks this,
and from then on until it is freed: its descriptor would stay open.
-/
import Mathlib.Tactic.Common
import PmmpThread.Zend.Foreach
import PmmpThread.Model.Sockets

namespace PmmpThread.Model.Sockets

open Zend

variable {s s' : Sockets} {a : Nat} {o : PhpSocket} {op : SocketOp}

-- ====================================================== the descriptors

/-- A socket is not open behind a closed number. -/
theorem closeFd_eq_some {os : Nat → Option SocketId} {fd : Option Nat}
    {n : Nat} {k : SocketId} :
    closeFd os fd n = some k ↔ os n = some k ∧ fd ≠ some n := by
  unfold closeFd
  cases fd with
  | none => simp
  | some m =>
      dsimp only
      rw [Function.update_apply]
      by_cases hnm : n = m
      · simp [hnm]
      · simp [hnm, Ne.symm hnm]

/-- A number is tracked from its first store on. -/
theorem mem_sharedSocketTrack {shared : Finset Nat} {fd : Option Nat}
    {n : Nat} :
    n ∈ sharedSocketTrack shared fd ↔ n ∈ shared ∨ fd = some n := by
  cases fd with
  | none => simp [sharedSocketTrack]
  | some m => simp [sharedSocketTrack, eq_comm, or_comm]

/-- The hook closes what is not tracked. -/
theorem freeObjHook_bsdSocket (shared : Finset Nat) (o : PhpSocket)
    {n : Nat} : (freeObjHook shared o).bsdSocket = some n
      ↔ o.bsdSocket = some n ∧ n ∉ shared := by
  unfold freeObjHook
  cases hfd : o.bsdSocket with
  | none => simp [socketShared, hfd]
  | some m =>
      by_cases hm : m ∈ shared
      · simp only [socketShared, hm, decide_true, if_true]
        grind
      · simp only [socketShared, hm, decide_false, Bool.false_eq_true,
          if_false, hfd]
        grind

-- ======================================================== the invariant

/-- What holds in every state. -/
structure Inv (s : Sockets) : Prop where
  object_lt : ∀ {a o}, s.objects a = some o → o.socket < s.next
  open_lt : ∀ {n k}, s.os n = some k → k < s.next
  stored_lt : ∀ {k}, k ∈ s.stored → k < s.next
  kept : ∀ st ∈ s.storages, st.socket ∈ s.stored
  /-- A number that a stored socket has is in the table. -/
  shared : ∀ {a o n}, s.objects a = some o → o.socket ∈ s.stored →
    o.bsdSocket = some n → n ∈ s.sharedSockets
  shared_kept : ∀ st ∈ s.storages, ∀ {n}, st.bsdSocket = some n →
    n ∈ s.sharedSockets
  /-- A socket that was never stored has one object. -/
  one : ∀ {a a' o o'}, s.objects a = some o → s.objects a' = some o' →
    o.socket = o'.socket → o.socket ∉ s.stored → a = a'
  /-- It is open behind the number of this object only. -/
  own : ∀ {a o n}, s.objects a = some o → o.socket ∉ s.stored →
    s.os n = some o.socket → o.bsdSocket = some n

/-- A socket that was never stored is open behind its number, which is not
in the table. -/
def Alone (s : Sockets) : Prop :=
  ∀ ⦃a o n⦄, s.objects a = some o → o.socket ∉ s.stored →
    o.bsdSocket = some n → s.os n = some o.socket ∧ n ∉ s.sharedSockets

theorem inv_init : Inv init := by
  constructor <;> simp [init]

theorem alone_init : Alone init := by
  intro a o n ho
  simp [init] at ho

-- =============================================================== steps

/-- The objects after a change at one address. -/
theorem update_eq_some {f : Nat → Option PhpSocket} {x : Option PhpSocket}
    {b : Nat} {o' : PhpSocket} :
    Function.update f a x b = some o'
      ↔ b = a ∧ x = some o' ∨ b ≠ a ∧ f b = some o' := by
  rw [Function.update_apply]
  by_cases hba : b = a
  · simp [hba]
  · simp [hba]

/-- A new socket has a number that is not open. -/
theorem inv_create (hi : Inv s) {fd : Nat} {info : SocketInfo}
    {zstream : Bool} (hs : s.step (.create a fd info zstream) = some s') :
    Inv s' := by
  rw [step] at hs
  split_ifs at hs with hfree
  cases hs
  have hlt : s.next ∉ s.stored := fun h =>
    Nat.lt_irrefl _ (hi.stored_lt h)
  constructor
  case object_lt =>
    intro b o ho
    rcases update_eq_some.mp ho with ⟨-, ho⟩ | ⟨-, ho⟩
    · cases ho
      exact Nat.lt_succ_self _
    · exact Nat.lt_succ_of_lt (hi.object_lt ho)
  case open_lt =>
    intro n k hk
    dsimp only at hk ⊢
    rw [Function.update_apply] at hk
    split_ifs at hk
    · cases hk
      exact Nat.lt_succ_self _
    · exact Nat.lt_succ_of_lt (hi.open_lt hk)
  case stored_lt => exact fun hk => Nat.lt_succ_of_lt (hi.stored_lt hk)
  case kept => exact hi.kept
  case shared =>
    intro b o n ho hst hn
    rcases update_eq_some.mp ho with ⟨-, ho⟩ | ⟨-, ho⟩
    · cases ho
      exact absurd hst hlt
    · exact hi.shared ho hst hn
  case shared_kept => exact hi.shared_kept
  case one =>
    intro b b' o o' ho ho' heq hst
    rcases update_eq_some.mp ho with ⟨hb, ho⟩ | ⟨hb, ho⟩
    · rcases update_eq_some.mp ho' with ⟨hb', ho'⟩ | ⟨hb', ho'⟩
      · rw [hb, hb']
      · cases ho
        exact absurd heq (Nat.ne_of_gt (hi.object_lt ho'))
    · rcases update_eq_some.mp ho' with ⟨hb', ho'⟩ | ⟨hb', ho'⟩
      · cases ho'
        exact absurd heq (Nat.ne_of_lt (hi.object_lt ho))
      · exact hi.one ho ho' heq hst
  case own =>
    intro b o n ho hst hn
    dsimp only at hn
    rw [Function.update_apply] at hn
    rcases update_eq_some.mp ho with ⟨-, ho⟩ | ⟨-, ho⟩
    · cases ho
      split_ifs at hn with hfd
      · rw [hfd]
      · exact absurd (hi.open_lt hn) (Nat.lt_irrefl _)
    · split_ifs at hn with hfd
      · have heq := Option.some.inj hn
        exact absurd heq (Nat.ne_of_gt (hi.object_lt ho))
      · exact hi.own ho hst hn

theorem inv_store (hi : Inv s) (hs : s.step (.store a) = some s') :
    Inv s' := by
  obtain ⟨o, ho, rfl⟩ := Option.map_eq_some_iff.mp hs
  unfold storeCreate
  split_ifs with hz
  · exact hi
  · constructor
    case object_lt => exact hi.object_lt
    case open_lt => exact hi.open_lt
    case stored_lt =>
      intro k hk
      rcases Finset.mem_insert.mp hk with rfl | hk
      · exact hi.object_lt ho
      · exact hi.stored_lt hk
    case kept =>
      intro st hst
      rcases List.mem_append.mp hst with hst | hst
      · exact Finset.mem_insert_of_mem (hi.kept st hst)
      · rw [List.mem_singleton.mp hst]
        exact Finset.mem_insert_self _ _
    case shared =>
      intro b o' n ho' hst hn
      refine mem_sharedSocketTrack.mpr ?_
      by_cases hold : o'.socket ∈ s.stored
      · exact Or.inl (hi.shared ho' hold hn)
      · -- the object that is stored now is the only one
        rcases Finset.mem_insert.mp hst with heq | hst
        · have hb := hi.one ho' ho heq hold
          rw [hb, ho] at ho'
          cases ho'
          exact Or.inr hn
        · exact absurd hst hold
    case shared_kept =>
      intro st hst n hn
      refine mem_sharedSocketTrack.mpr ?_
      rcases List.mem_append.mp hst with hst | hst
      · exact Or.inl (hi.shared_kept st hst hn)
      · rw [List.mem_singleton.mp hst] at hn
        exact Or.inr hn
    case one =>
      intro b b' o₁ o₂ h₁ h₂ heq hst
      refine hi.one h₁ h₂ heq fun h => ?_
      exact hst (Finset.mem_insert_of_mem h)
    case own =>
      intro b o' n ho' hst hn
      refine hi.own ho' (fun h => ?_) hn
      exact hst (Finset.mem_insert_of_mem h)

/-- A restored socket has the number of the stored one. -/
theorem inv_restore (hi : Inv s) {i : Nat}
    (hs : s.step (.restore i a) = some s') : Inv s' := by
  rw [step] at hs
  split_ifs at hs with hfree
  obtain ⟨st, hst, rfl⟩ := Option.map_eq_some_iff.mp hs
  have hmem := List.mem_of_getElem? hst
  have hstored := hi.kept st hmem
  constructor
  case object_lt =>
    intro b o ho
    rcases update_eq_some.mp ho with ⟨-, ho⟩ | ⟨-, ho⟩
    · cases ho
      exact hi.stored_lt hstored
    · exact hi.object_lt ho
  case open_lt => exact hi.open_lt
  case stored_lt => exact hi.stored_lt
  case kept => exact hi.kept
  case shared =>
    intro b o n ho hso hn
    rcases update_eq_some.mp ho with ⟨-, ho⟩ | ⟨-, ho⟩
    · cases ho
      exact hi.shared_kept st hmem hn
    · exact hi.shared ho hso hn
  case shared_kept => exact hi.shared_kept
  case one =>
    intro b b' o o' ho ho' heq hso
    rcases update_eq_some.mp ho with ⟨-, ho⟩ | ⟨-, ho⟩
    · cases ho
      exact absurd hstored hso
    · rcases update_eq_some.mp ho' with ⟨-, ho'⟩ | ⟨-, ho'⟩
      · cases ho'
        rw [heq] at hso
        exact absurd hstored hso
      · exact hi.one ho ho' heq hso
  case own =>
    intro b o n ho hso hn
    rcases update_eq_some.mp ho with ⟨-, ho⟩ | ⟨-, ho⟩
    · cases ho
      exact absurd hstored hso
    · exact hi.own ho hso hn

theorem inv_close (hi : Inv s) (hs : s.step (.close a) = some s') :
    Inv s' := by
  obtain ⟨o, ho, rfl⟩ := Option.map_eq_some_iff.mp hs
  -- every object is one from before, perhaps without its number
  have hold : ∀ {b o'}, Function.update s.objects a
      (some { o with bsdSocket := none }) b = some o' →
      ∃ o₁, s.objects b = some o₁ ∧ o₁.socket = o'.socket
        ∧ (o'.bsdSocket = o₁.bsdSocket ∨ b = a ∧ o₁ = o
          ∧ o'.bsdSocket = none) := by
    intro b o' ho'
    rcases update_eq_some.mp ho' with ⟨hb, h'⟩ | ⟨-, h'⟩
    · cases h'
      exact ⟨o, hb ▸ ho, rfl, Or.inr ⟨hb, rfl, rfl⟩⟩
    · exact ⟨o', h', rfl, Or.inl rfl⟩
  constructor
  case object_lt =>
    intro b o' ho'
    obtain ⟨o₁, h₁, heq, -⟩ := hold ho'
    rw [← heq]
    exact hi.object_lt h₁
  case open_lt => exact fun hk => hi.open_lt (closeFd_eq_some.mp hk).1
  case stored_lt => exact hi.stored_lt
  case kept => exact hi.kept
  case shared =>
    intro b o' n ho' hst hn
    obtain ⟨o₁, h₁, heq, hfd | ⟨-, -, hfd⟩⟩ := hold ho'
    · rw [← heq] at hst
      rw [hfd] at hn
      exact hi.shared h₁ hst hn
    · rw [hfd] at hn
      cases hn
  case shared_kept => exact hi.shared_kept
  case one =>
    intro b b' o₁ o₂ h₁ h₂ heq hst
    obtain ⟨p₁, hp₁, heq₁, -⟩ := hold h₁
    obtain ⟨p₂, hp₂, heq₂, -⟩ := hold h₂
    refine hi.one hp₁ hp₂ ?_ ?_
    · rw [heq₁, heq₂, heq]
    · rw [heq₁]
      exact hst
  case own =>
    intro b o' n ho' hst hn
    obtain ⟨hn, hne⟩ := closeFd_eq_some.mp hn
    obtain ⟨o₁, h₁, heq, hfd⟩ := hold ho'
    rw [← heq] at hst hn
    have hown := hi.own h₁ hst hn
    rcases hfd with hfd | ⟨-, rfl, -⟩
    · rw [hfd]
      exact hown
    · exact absurd hown hne

theorem inv_free (hi : Inv s) (hs : s.step (.free a) = some s') :
    Inv s' := by
  obtain ⟨o, ho, rfl⟩ := Option.map_eq_some_iff.mp hs
  have hold : ∀ {b o'}, Function.update s.objects a none b = some o' →
      s.objects b = some o' := by
    intro b o' ho'
    rcases update_eq_some.mp ho' with ⟨-, ho'⟩ | ⟨-, ho'⟩
    · cases ho'
    · exact ho'
  constructor
  case object_lt => exact fun h => hi.object_lt (hold h)
  case open_lt => exact fun hk => hi.open_lt (closeFd_eq_some.mp hk).1
  case stored_lt => exact hi.stored_lt
  case kept => exact hi.kept
  case shared => exact fun h => hi.shared (hold h)
  case shared_kept => exact hi.shared_kept
  case one => exact fun h h' => hi.one (hold h) (hold h')
  case own =>
    intro b o' n ho' hst hn
    exact hi.own (hold ho') hst (closeFd_eq_some.mp hn).1

/-- What one step preserves; `inv_run` is the run. -/
theorem inv_step (hi : Inv s) (hs : s.step op = some s') : Inv s' := by
  cases op with
  | create a fd info zstream => exact inv_create hi hs
  | store a => exact inv_store hi hs
  | restore i a => exact inv_restore hi hs
  | close a => exact inv_close hi hs
  | free a => exact inv_free hi hs

-- ============================================================ untracked

/-- What is left open by closing the number of another object. -/
theorem Alone.closed (hi : Inv s) (ha : Alone s) (ho : s.objects a = some o)
    {fd : Option Nat} (hfd : ∀ n, fd = some n → o.bsdSocket = some n)
    {b : Nat} {o' : PhpSocket} {n : Nat} (hba : b ≠ a)
    (ho' : s.objects b = some o') (hst : o'.socket ∉ s.stored)
    (hn : o'.bsdSocket = some n) :
    closeFd s.os fd n = some o'.socket ∧ n ∉ s.sharedSockets := by
  obtain ⟨hopen, hshared⟩ := ha ho' hst hn
  refine ⟨closeFd_eq_some.mpr ⟨hopen, fun heq => ?_⟩, hshared⟩
  have hown := hfd n heq
  by_cases hso : o.socket ∈ s.stored
  · exact hshared (hi.shared ho hso hown)
  · have hsame := hopen.symm.trans (ha ho hso hown).1
    exact hba (hi.one ho' ho (Option.some.inj hsame) hst)

/-- A number that was never shared is nobody else's. -/
theorem alone_create (ha : Alone s) {fd : Nat} {info : SocketInfo}
    {zstream : Bool} (hu : fd ∉ s.sharedSockets)
    (hs : s.step (.create a fd info zstream) = some s') : Alone s' := by
  rw [step] at hs
  split_ifs at hs with hfree
  cases hs
  intro b o n ho hst hn
  dsimp only
  rw [Function.update_apply]
  rcases update_eq_some.mp ho with ⟨-, h⟩ | ⟨-, h⟩
  · cases h
    cases hn
    exact ⟨if_pos rfl, hu⟩
  · obtain ⟨hopen, hshared⟩ := ha h hst hn
    refine ⟨?_, hshared⟩
    rw [if_neg, hopen]
    rintro rfl
    simp [hopen] at hfree

/-- A stored number is tracked. -/
theorem alone_store (hi : Inv s) (ha : Alone s)
    (hs : s.step (.store a) = some s') : Alone s' := by
  obtain ⟨o, ho, rfl⟩ := Option.map_eq_some_iff.mp hs
  unfold storeCreate
  split_ifs with hz
  · exact ha
  · intro b o' n ho' hst hn
    dsimp only at hst ⊢
    rw [Finset.mem_insert, not_or] at hst
    obtain ⟨hopen, hshared⟩ := ha ho' hst.2 hn
    refine ⟨hopen, fun hmem => ?_⟩
    rcases mem_sharedSocketTrack.mp hmem with hmem | hown
    · exact hshared hmem
    · by_cases hso : o.socket ∈ s.stored
      · exact hshared (hi.shared ho hso hown)
      · have hsame := hopen.symm.trans (ha ho hso hown).1
        exact hst.1 (Option.some.inj hsame)

theorem alone_restore (hi : Inv s) (ha : Alone s) {i : Nat}
    (hs : s.step (.restore i a) = some s') : Alone s' := by
  rw [step] at hs
  split_ifs at hs with hfree
  obtain ⟨st, hst, rfl⟩ := Option.map_eq_some_iff.mp hs
  intro b o n ho hso hn
  rcases update_eq_some.mp ho with ⟨-, h⟩ | ⟨-, h⟩
  · cases h
    exact absurd (hi.kept st (List.mem_of_getElem? hst)) hso
  · exact ha h hso hn

/-- Closing is by the script. -/
theorem alone_close (hi : Inv s) (ha : Alone s)
    (hs : s.step (.close a) = some s') : Alone s' := by
  obtain ⟨o, ho, rfl⟩ := Option.map_eq_some_iff.mp hs
  intro b o' n ho' hst hn
  rcases update_eq_some.mp ho' with ⟨-, h⟩ | ⟨hba, h⟩
  · cases h
    cases hn
  · exact ha.closed hi ho (fun n h => h) hba h hst hn

theorem alone_free (hi : Inv s) (ha : Alone s)
    (hs : s.step (.free a) = some s') : Alone s' := by
  obtain ⟨o, ho, rfl⟩ := Option.map_eq_some_iff.mp hs
  intro b o' n ho' hst hn
  rcases update_eq_some.mp ho' with ⟨-, h⟩ | ⟨hba, h⟩
  · cases h
  · refine ha.closed hi ho (fun n h => ?_) hba h hst hn
    exact ((freeObjHook_bsdSocket _ _).mp h).1

/-- What one step preserves if its number is untracked. -/
theorem alone_step (hi : Inv s) (ha : Alone s) (hu : Untracked s op)
    (hs : s.step op = some s') : Alone s' := by
  cases op with
  | create a fd info zstream => exact alone_create ha hu hs
  | store a => exact alone_store hi ha hs
  | restore i a => exact alone_restore hi ha hs
  | close a => exact alone_close hi ha hs
  | free a => exact alone_free hi ha hs

-- ============================================================= freeing

/-- An object that is freed while its number tells the truth. -/
theorem freesRight_of_alone (hi : Inv s) (ha : Alone s) (a : Nat) :
    FreesRight s a := by
  intro o s' ho hs
  obtain ⟨o₁, ho₁, rfl⟩ := Option.map_eq_some_iff.mp hs
  have heq := Option.some.inj (ho₁.symm.trans ho)
  subst heq
  refine ⟨fun hst n hn => ?_, fun hst => ?_⟩
  · obtain ⟨hopen, hne⟩ := closeFd_eq_some.mp hn
    have hown := hi.own ho hst hopen
    exact hne ((freeObjHook_bsdSocket _ _).mpr ⟨hown, (ha ho hst hown).2⟩)
  · have hnone : (freeObjHook s.sharedSockets o₁).bsdSocket = none := by
      refine Option.eq_none_iff_forall_ne_some.mpr fun n hn => ?_
      obtain ⟨hown, hshared⟩ := (freeObjHook_bsdSocket _ _).mp hn
      exact hshared (hi.shared ho hst hown)
    dsimp only
    rw [hnone]
    rfl

/-- A new socket that has a number from the table is not closed. -/
theorem not_freesRight_of_tracked (hi : Inv s) {fd : Nat} {info : SocketInfo}
    {zstream : Bool} (hmem : fd ∈ s.sharedSockets)
    (hs : s.step (.create a fd info zstream) = some s') :
    ¬ FreesRight s' a := by
  rw [step] at hs
  split_ifs at hs with hfree
  cases hs
  intro hright
  have ho : Function.update s.objects a
      (some ⟨some fd, info, zstream, s.next⟩) a
      = some ⟨some fd, info, zstream, s.next⟩ := Function.update_self ..
  have hnew : s.next ∉ s.stored := fun h =>
    Nat.lt_irrefl _ (hi.stored_lt h)
  refine (hright _ _ ho (congrArg (Option.map _) ho)).1 hnew fd ?_
  refine closeFd_eq_some.mpr ⟨Function.update_self .., fun h => ?_⟩
  exact ((freeObjHook_bsdSocket _ _).mp h).2 hmem

-- ================================================================= runs

/-- A run is a loop that may stop. -/
theorem run_eq_foldlM (s : Sockets) (ops : List SocketOp) :
    s.run ops = ops.foldlM step s := by
  induction ops generalizing s with
  | nil => rfl
  | cons op ops ih =>
      rw [run, List.foldlM_cons]
      exact Option.bind_congr fun t _ => ih t

theorem run_append (s : Sockets) (pre post : List SocketOp) :
    s.run (pre ++ post) = (s.run pre).bind fun t => t.run post := by
  rw [run_eq_foldlM, run_eq_foldlM, List.foldlM_append]
  exact Option.bind_congr fun t _ => (run_eq_foldlM t post).symm

theorem inv_run {ops : List SocketOp} (hi : Inv s)
    (hr : s.run ops = some s') : Inv s' := by
  rw [run_eq_foldlM] at hr
  exact foldlM_induct ops (fun _ hi ht => inv_step hi ht) hi hr

/-- And the run, if every step before was so. -/
theorem alone_run {ops : List SocketOp} (hi : Inv s) (ha : Alone s)
    (hu : ∀ pre op post t, ops = pre ++ op :: post → s.run pre = some t →
      Untracked t op) (hr : s.run ops = some s') : Alone s' := by
  rw [run_eq_foldlM] at hr
  refine (foldlM_rounds (P := fun _ t => Inv t ∧ Alone t) ops ⟨hi, ha⟩ ?_
    hr).2
  rintro pre op post t t' heq hpre ⟨hi, ha⟩ ht
  have hop := hu pre op post t heq ((run_eq_foldlM s pre).trans hpre)
  exact ⟨inv_step hi ht, alone_step hi ha hop ht⟩

/-- Through a whole run, every Socket object is freed as it should be if and
only if no new socket is given a number that is in the table. -/
theorem frees_right_iff (ops : List SocketOp) {s : Sockets}
    (hr : init.run ops = some s) :
    (∀ pre post t, ops = pre ++ post → init.run pre = some t →
        ∀ a, FreesRight t a)
      ↔ ∀ pre op post t, ops = pre ++ op :: post → init.run pre = some t →
        Untracked t op := by
  constructor
  · intro hright pre op post t heq hpre
    have hi := inv_run inv_init hpre
    cases op with
    | create a fd info zstream =>
        intro hmem
        rw [heq, run_append, hpre, Option.bind_some] at hr
        obtain ⟨t', ht, -⟩ := Option.bind_eq_some_iff.mp hr
        refine not_freesRight_of_tracked hi hmem ht
          (hright (pre ++ [.create a fd info zstream]) post t' ?_ ?_ a)
        · rw [heq, List.append_assoc]
          rfl
        · rw [run_append, hpre, Option.bind_some, run, ht]
          rfl
    | _ => trivial
  · intro hu pre post t heq hpre a
    refine freesRight_of_alone (inv_run inv_init hpre) ?_ a
    refine alone_run inv_init alone_init (fun pre' op post' t' heq' h => ?_)
      hpre
    refine hu pre' op (post' ++ post) t' ?_ h
    rw [heq, heq', List.append_assoc]
    rfl

def plainInfo : SocketInfo := ⟨1, 0, 1⟩

/-- A socket is stored and one is not; both objects are freed. -/
theorem frees_right_iff_two :
    (∀ pre post t, [SocketOp.create 0 5 plainInfo false, .store 0,
          .create 1 6 plainInfo false, .free 1, .free 0] = pre ++ post →
        init.run pre = some t → ∀ a, FreesRight t a)
      ↔ ∀ pre op post t, [SocketOp.create 0 5 plainInfo false, .store 0,
          .create 1 6 plainInfo false, .free 1, .free 0]
            = pre ++ op :: post →
        init.run pre = some t → Untracked t op :=
  frees_right_iff _ rfl

/-- A socket is stored and closed, and the next socket gets its number. The
object of the new one, which was never stored, does not close it. -/
theorem frees_right_reused : ∃ s s',
    init.run [.create 0 5 plainInfo false, .store 0, .close 0,
      .create 1 5 plainInfo false] = some s
    ∧ s.objects 1 = some ⟨some 5, plainInfo, false, 1⟩ ∧ 1 ∉ s.stored
    ∧ s.step (.free 1) = some s' ∧ s'.os 5 = some 1
    ∧ ¬ FreesRight s 1 := by
  refine ⟨_, _, rfl, rfl, by decide, rfl, rfl, fun hright => ?_⟩
  exact (hright _ _ rfl rfl).1 (by decide) 5 rfl

end PmmpThread.Model.Sockets
