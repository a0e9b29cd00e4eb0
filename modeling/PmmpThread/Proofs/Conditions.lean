/-
Waiting for a flag of a monitor, with any number of threads that call the
functions of src/monitor.c in any order: no wake-up is missed, and what
happens to a thread that waits inside `ThreadSafe::synchronized` of the
same object.

The calls announce every change before the mutex is given back
(`announces_code`) and take it for every change and test (`guarded_code`),
which is what the rules of `Pthread/Cond.lean` ask for.
-/
import PmmpThread.Model.Conditions

namespace PmmpThread.Model

open Pthread Cond

-- ============================================================== the code

namespace ConditionCall

mutual

theorem announces_code : ∀ (c : ConditionCall)
    {rest : List (CondOp MonitorState)}, Announces rest →
    Announces (c.code ++ rest)
  | .add _, _, h | .remove _, _, h => ⟨⟨_, rfl⟩, h⟩
  | .check _, _, h | .waitUntil _, _, h | .wait, _, h | .notify, _, h
  | .notifyOne, _, h => h
  | .locked body, rest, h => by
      simp only [code, List.cons_append, List.append_assoc]
      have hrest : Announces ([.unlock] ++ rest) := h
      exact announces_codes body hrest

theorem announces_codes : ∀ (cs : List ConditionCall)
    {rest : List (CondOp MonitorState)}, Announces rest →
    Announces (codes cs ++ rest)
  | [], _, h => h
  | c :: cs, rest, h => by
      simp only [codes, List.append_assoc]
      exact announces_code c (announces_codes cs h)

end

mutual

theorem guarded_code : ∀ (c : ConditionCall) {n : Nat}
    {rest : List (CondOp MonitorState)}, Guarded n rest →
    Guarded n (c.code ++ rest)
  | .add _, n, _, h | .remove _, n, _, h =>
      ⟨Nat.succ_pos n, Nat.succ_pos n, h⟩
  | .check _, n, _, h => ⟨Nat.succ_pos n, h⟩
  | .waitUntil _, n, _, h => ⟨Nat.succ_pos n, Nat.succ_pos n, h⟩
  | .wait, _, _, h | .notify, _, _, h | .notifyOne, _, _, h => h
  | .locked body, n, rest, h => by
      simp only [code, List.cons_append, List.append_assoc]
      have hrest : Guarded (n + 1) ([.unlock] ++ rest) :=
        And.intro (Nat.succ_pos n) h
      exact guarded_codes body hrest

theorem guarded_codes : ∀ (cs : List ConditionCall) {n : Nat}
    {rest : List (CondOp MonitorState)}, Guarded n rest →
    Guarded n (codes cs ++ rest)
  | [], _, _, h => h
  | c :: cs, n, rest, h => by
      simp only [codes, List.append_assoc]
      exact guarded_code c (guarded_codes cs h)

end

end ConditionCall

section

variable {T : Type} [DecidableEq T] {calls : T → List ConditionCall}
  {m : MonitorState} {s s' : Cond T MonitorState} {t : T}
  {mask : List Flag} {rest : List (CondOp MonitorState)}

omit [DecidableEq T] in
theorem startConditions_start (calls : T → List ConditionCall)
    (m : MonitorState) : (startConditions calls m).Start where
  running _ := rfl
  free := rfl
  announces t := by
    have hnil : Announces ([] : List (CondOp MonitorState)) := trivial
    have h := ConditionCall.announces_codes (calls t) hnil
    rwa [List.append_nil] at h
  guarded t := by
    have hnil : Guarded 0 ([] : List (CondOp MonitorState)) := rfl
    have h := ConditionCall.guarded_codes (calls t) hnil
    rwa [List.append_nil] at h

theorem startConditions_disciplined
    (h : Relation.ReflTransGen Steps (startConditions calls m) s) :
    s.Disciplined :=
  Reachable.disciplined ⟨_, startConditions_start calls m, h⟩

theorem lacks_eq_true : ConditionCall.lacks mask m = true
    ↔ m.check mask = false := by
  unfold ConditionCall.lacks
  simp

theorem lacks_eq_false : ConditionCall.lacks mask m = false
    ↔ m.check mask = true := by
  unfold ConditionCall.lacks
  simp

/-- No wake-up of `pmmpthread_monitor_wait_until` is missed. Whenever nobody
holds the monitor, a thread that is asleep in it has none of its flags
set; and with one of them set the two next steps of the thread end the
wait. -/
theorem wait_until_not_missed (calls : T → List ConditionCall)
    (m : MonitorState) (s : Cond T MonitorState)
    (h : Relation.ReflTransGen Steps (startConditions calls m) s) (t : T)
    (mask : List Flag) (rest : List (CondOp MonitorState))
    (hfree : s.owner = none)
    (hc : s.code t = .waitWhile (ConditionCall.lacks mask) :: rest) :
    (s.phase t = .asleep → s.value.check mask = false)
      ∧ (s.value.check mask = true →
        ∃ s₁ s₂, s.step (.run t none) = some s₁
          ∧ s₁.step (.run t none) = some s₂
          ∧ s₂.code t = rest ∧ s₂.phase t = .running
          ∧ s₂.owner = some (t, 0) ∧ s₂.value = s.value) := by
  have hd := startConditions_disciplined h
  constructor
  · intro hp
    exact lacks_eq_true.mp (hd.not_missed hfree hp hc)
  · intro hv
    exact hd.wait_ends hfree hc (lacks_eq_false.mpr hv)

/-- The creator tests and sleeps; the child sets the flag. -/
def sleepThenAdd : List (CondAct StartThread) :=
  List.replicate 3 (.run .creator none) ++ List.replicate 4 (.run .child none)

theorem wait_until_not_missed_sleepThenAdd :
    ∃ s s₁ s₂ : Cond StartThread MonitorState,
      (startConditions startCalls ∅).run sleepThenAdd = some s
        ∧ s.step (.run .creator none) = some s₁
        ∧ s₁.step (.run .creator none) = some s₂
        ∧ s₂.code .creator = [.unlock] := by
  obtain ⟨s, hs, hfree, hc, hv⟩ : ∃ s : Cond StartThread MonitorState,
      (startConditions startCalls ∅).run sleepThenAdd = some s
        ∧ s.owner = none
        ∧ s.code .creator
          = [.waitWhile (ConditionCall.lacks [.ready]), .unlock]
        ∧ s.value.check [.ready] = true := ⟨_, rfl, rfl, rfl, by decide⟩
  obtain ⟨s₁, s₂, h₁, h₂, hc', -⟩ := (wait_until_not_missed startCalls ∅ s
    (steps_of_run _ hs) .creator _ _ hfree hc).2 hv
  exact ⟨s, s₁, s₂, hs, h₁, h₂, hc'⟩

/-- A thread that calls `pmmpthread_monitor_wait_until` when it holds the
monitor already, and none of the flags is set, never returns from it: in
every later state it is still there, no other thread has the monitor, and
the state word is the same. -/
theorem wait_until_nested_hangs (calls : T → List ConditionCall)
    (m : MonitorState) (s s' : Cond T MonitorState)
    (h : Relation.ReflTransGen Steps (startConditions calls m) s) (t : T)
    (mask : List Flag) (rest : List (CondOp MonitorState))
    (hc : s.code t = .waitWhile (ConditionCall.lacks mask) :: rest)
    (hheld : 2 ≤ s.held t) (hunset : s.value.check mask = false)
    (hrun : Relation.ReflTransGen Steps s s') :
    s'.code t = .waitWhile (ConditionCall.lacks mask) :: rest
      ∧ s'.value = s.value
      ∧ ∀ u, u ≠ t → timesBy u s'.owner = 0 := by
  have hn : Nested t (ConditionCall.lacks mask) rest s :=
    ⟨startConditions_disciplined h, hc, lacks_eq_true.mpr hunset, hheld⟩
  obtain ⟨hn', hv⟩ := hn.run hrun
  exact ⟨hn'.code, hv, fun u hu => hn'.others hu⟩

end

/-- A thread is joined in the body of `synchronized` on it. -/
def joinInside : StartThread → List ConditionCall
  | .creator => [.locked [.waitUntil [.awaitJoin]]]
  | .child => [.add .awaitJoin]

theorem wait_until_nested_hangs_joinInside :
    ∃ s s' : Cond StartThread MonitorState,
      (startConditions joinInside ∅).run
          (List.replicate 2 (.run .creator none)) = some s
        ∧ s.run (List.replicate 2 (.run .creator none)) = some s'
        ∧ s'.phase .creator = .asleep
        ∧ s'.code .creator = s.code .creator ∧ s'.value = s.value
        ∧ timesBy .child s'.owner = 0 := by
  obtain ⟨s, hs, hc, hheld, hv⟩ : ∃ s : Cond StartThread MonitorState,
      (startConditions joinInside ∅).run
          (List.replicate 2 (.run .creator none)) = some s
        ∧ s.code .creator = [.waitWhile (ConditionCall.lacks [.awaitJoin]),
          .unlock, .unlock]
        ∧ 2 ≤ s.held .creator ∧ s.value.check [.awaitJoin] = false :=
    ⟨_, rfl, rfl, by decide, by decide⟩
  obtain ⟨s', hs', hp⟩ : ∃ s', s.run (List.replicate 2 (.run .creator none))
      = some s' ∧ s'.phase .creator = .asleep := by
    have hs₂ := hs
    cases hs₂
    exact ⟨_, rfl, rfl⟩
  obtain ⟨hc', hv', hothers⟩ := wait_until_nested_hangs joinInside ∅ s s'
    (steps_of_run _ hs) .creator _ _ hc hheld hv (steps_of_run _ hs')
  exact ⟨s, s', hs, hs', hp, hc'.trans hc.symm, hv',
    hothers .child (by simp)⟩

-- ====================================================== starting a thread

/-- What the child does to the monitor of its creator's call. -/
def childOps : List (CondOp MonitorState) := ConditionCall.codes
  (startCalls .child)

/-- The loop of the creator, and what is behind it. -/
def creatorWait : List (CondOp MonitorState) :=
  [.waitWhile (ConditionCall.lacks [.ready]), .unlock]

/-- The child has done `k` of its steps; it holds the monitor in the
middle of them, and `READY` is set from the second on. -/
structure ChildAt (s : Cond StartThread MonitorState) (k : Nat) : Prop where
  le : k ≤ 4
  code : s.code .child = childOps.drop k
  phase : s.phase .child = .running
  times : timesBy .child s.owner = if k = 0 ∨ k = 4 then 0 else 1
  ready : .ready ∈ s.value ↔ 2 ≤ k

/-- The creator gets behind its loop only when the child is done. -/
structure Handoff (s : Cond StartThread MonitorState) (k : Nat) : Prop
    extends ChildAt s k where
  disciplined : s.Disciplined
  creator : s.code .creator = .lock :: creatorWait
    ∨ s.code .creator = creatorWait
    ∨ k = 4 ∧ (s.code .creator = [.unlock] ∨ s.code .creator = [])

theorem handoff_start : Handoff (startConditions startCalls ∅) 0 where
  le := Nat.zero_le _
  code := rfl
  phase := rfl
  times := rfl
  ready := by simp [startConditions]
  disciplined := (startConditions_start startCalls ∅).disciplined
  creator := Or.inl rfl

section

variable {s s' : Cond StartThread MonitorState} {k : Nat}

/-- A step of the creator is not seen by the child. -/
theorem ChildAt.touch (hc : ChildAt s k)
    (ht : Touches StartThread.creator s s') (hv : s'.value = s.value) :
    ChildAt s' k where
  le := hc.le
  code := (ht.code .child (by simp)).trans hc.code
  phase := by
    rcases ht.phase .child (by simp) with h | ⟨h, -⟩
    · exact h.trans hc.phase
    · rw [hc.phase] at h
      cases h
  times := by
    rw [ht.times .child (by simp)]
    exact hc.times
  ready := by
    rw [hv]
    exact hc.ready

/-- When the creator takes the monitor the child is before its first or
behind its last step. -/
theorem ChildAt.outside (hc : ChildAt s k) {o : StartThread × Nat}
    (ho : acquire s.owner .creator = some o) : k = 0 ∨ k = 4 := by
  obtain ⟨hself, hothers⟩ := acquire_spec ho
  have hpos : 0 < timesBy StartThread.creator (some o) := by omega
  have hchild := (timesBy_pos hpos).2 .child (by simp)
  rw [hothers .child (by simp), hc.times] at hchild
  by_contra hk
  rw [if_neg hk] at hchild
  cases hchild

theorem Handoff.creatorStep {reaches : Option StartThread}
    (hh : Handoff s k) (h : s.step (.run .creator reaches) = some s') :
    Handoff s' k := by
  have hd := hh.disciplined.step h
  obtain ⟨ht, hv⟩ := run_touches h
  have hvalue : s'.value = s.value := by
    rcases hv with hv | ⟨-, f, rest, hc⟩
    · exact hv
    · rcases hh.creator with h' | h' | ⟨-, h' | h'⟩
      all_goals
        rw [h'] at hc
        cases hc
  refine ⟨hh.toChildAt.touch ht hvalue, hd, ?_⟩
  simp only [Cond.step] at h
  split at h
  · simp only [Cond.runOp] at h
    rcases hh.creator with hc | hc | ⟨hk, hc | hc⟩
    · rw [hc] at h
      obtain ⟨o, -, rfl⟩ := Option.map_eq_some_iff.mp h
      exact Or.inr (Or.inl (advance_code _ _ _))
    · rw [hc] at h
      obtain ⟨o, ho, h⟩ := Option.map_eq_some_iff.mp h
      split at h
      · subst h
        exact Or.inr (Or.inl hc)
      · next hp =>
          -- READY is set, and the child does not hold the monitor
          subst h
          have hset := lacks_eq_false.mp (Bool.eq_false_iff.mpr hp)
          have hready : 2 ≤ k := hh.ready.mp (by
            simpa [MonitorState.check] using hset)
          rcases hh.outside ho with hk | hk
          · omega
          · exact Or.inr (Or.inr ⟨hk, Or.inl (advance_code _ _ _)⟩)
    · rw [hc] at h
      cases h
      exact Or.inr (Or.inr ⟨hk, Or.inr (advance_code _ _ _)⟩)
    · rw [hc] at h
      cases h
  · next hp =>
      cases h
      obtain ⟨p, rest, hc, -⟩ := hh.disciplined.tested .creator hp
      have hguarded := hh.disciplined.guarded .creator
      rw [held_running (Or.inr hp), hc] at hguarded
      obtain ⟨o, ho⟩ := giveBack_isSome hguarded.1
      unfold Cond.sleep
      rw [ho]
      exact hh.creator
  · cases h
  · obtain ⟨o, -, rfl⟩ := Option.map_eq_some_iff.mp h
    have hafter : afterWait (s.code .creator) = s.code .creator := by
      rcases hh.creator with hc | hc | ⟨-, hc | hc⟩ <;> rw [hc] <;> rfl
    rw [advance_code, hafter]
    exact hh.creator

/-- A step of the child is the next of its four. -/
theorem ChildAt.step {reaches : Option StartThread} (hc : ChildAt s k)
    (h : s.step (.run .child reaches) = some s') : ChildAt s' (k + 1) := by
  have hle := hc.le
  have hcode := hc.code
  have htimes := hc.times
  have hready := hc.ready
  simp only [Cond.step, hc.phase, Cond.runOp] at h
  rw [hcode] at h
  have hk : k = 0 ∨ k = 1 ∨ k = 2 ∨ k = 3 ∨ k = 4 := by omega
  rcases hk with rfl | rfl | rfl | rfl | rfl
  · obtain ⟨o, ho, rfl⟩ := Option.map_eq_some_iff.mp h
    refine ⟨by omega, advance_code _ _ _, advance_phase _ _ _, ?_, ?_⟩
    · rw [advance_owner, (acquire_spec ho).1, htimes]
      rfl
    · simpa using hready
  · cases h
    refine ⟨by omega, advance_code _ _ _, advance_phase _ _ _, htimes, ?_⟩
    simp [MonitorState.add]
  · cases h
    refine ⟨by omega, advance_code _ _ _, advance_phase _ _ _, htimes, ?_⟩
    simpa using hready
  · cases h
    have hpos : 0 < timesBy StartThread.child s.owner := by
      rw [htimes]
      exact Nat.one_pos
    obtain ⟨o, ho⟩ := giveBack_isSome hpos
    have hback := (giveBack_spec ho).1
    rw [htimes] at hback
    refine ⟨by omega, advance_code _ _ _, advance_phase _ _ _, ?_, ?_⟩
    · rw [advance_owner]
      simp only [ho, Option.getD_some]
      simpa using hback
    · simpa using hready
  · cases h

theorem Handoff.step {act : CondAct StartThread} (hh : Handoff s k)
    (h : s.step act = some s') : ∃ k', Handoff s' k' := by
  have hd := hh.disciplined.step h
  cases act with
  | run t reaches =>
      cases t with
      | creator => exact ⟨k, hh.creatorStep h⟩
      | child =>
          have hc := hh.toChildAt.step h
          refine ⟨k + 1, hc, hd, ?_⟩
          rw [(run_touches h).1.code .creator (by simp)]
          rcases hh.creator with h' | h' | ⟨hk, -⟩
          · exact Or.inl h'
          · exact Or.inr (Or.inl h')
          · have hle := hc.le
            omega
  | wake t =>
      obtain ⟨hp, h⟩ := Option.ite_none_right_eq_some.mp h
      cases h
      have ht : t = .creator := by
        cases t with
        | creator => rfl
        | child =>
            rw [hh.phase] at hp
            cases hp
      subst ht
      have htouch : Touches StartThread.creator s { s with
          phase := Function.update s.phase .creator .notified } :=
        ⟨fun _ _ => rfl, fun _ hu => Or.inl (Function.update_of_ne hu _ _),
          fun _ _ => rfl⟩
      exact ⟨k, hh.toChildAt.touch htouch rfl, hd, hh.creator⟩

/-- `pmmpthread_start` keeps the monitor of its call on its stack. When the
creator has come out of its wait, and may destroy the monitor and return,
the child has made its last access to it, and the monitor is free. -/
theorem start_handoff (s : Cond StartThread MonitorState)
    (h : Relation.ReflTransGen Steps (startConditions startCalls ∅) s)
    (hdone : s.code .creator = []) :
    s.code .child = [] ∧ s.phase .child = .running
      ∧ s.owner = none ∧ .ready ∈ s.value := by
  obtain ⟨k, hh⟩ : ∃ k, Handoff s k := by
    clear hdone
    induction h with
    | refl => exact ⟨0, handoff_start⟩
    | tail _ hstep ih =>
        obtain ⟨k, hh⟩ := ih
        obtain ⟨act, hact⟩ := hstep
        exact hh.step hact
  have hk : k = 4 := by
    rcases hh.creator with hc | hc | ⟨hk, -⟩
    · rw [hdone] at hc
      cases hc
    · rw [hdone] at hc
      cases hc
    · exact hk
  subst hk
  have hcreator : timesBy StartThread.creator s.owner = 0 := by
    have hguarded := hh.disciplined.guarded .creator
    rw [hdone] at hguarded
    have hheld : s.held .creator = 0 := hguarded
    unfold Cond.held at hheld
    omega
  refine ⟨hh.code, hh.phase, ?_, hh.ready.mpr (by omega)⟩
  cases ho : s.owner with
  | none => rfl
  | some q =>
      obtain ⟨u, n⟩ := q
      have hchild := hh.times
      rw [ho] at hcreator hchild
      cases u with
      | creator =>
          rw [timesBy_self] at hcreator
          cases hcreator
      | child =>
          rw [timesBy_self] at hchild
          cases hchild

end

theorem start_handoff_sleepThenAdd :
    ∃ s : Cond StartThread MonitorState,
      (startConditions startCalls ∅).run
          (sleepThenAdd ++ List.replicate 3 (.run .creator none)) = some s
        ∧ s.code .creator = [] ∧ s.code .child = [] ∧ s.owner = none := by
  obtain ⟨s, hs, hc⟩ : ∃ s : Cond StartThread MonitorState,
      (startConditions startCalls ∅).run
          (sleepThenAdd ++ List.replicate 3 (.run .creator none)) = some s
        ∧ s.code .creator = [] := ⟨_, rfl, rfl⟩
  obtain ⟨hchild, -, hfree, -⟩ := start_handoff s (steps_of_run _ hs) hc
  exact ⟨s, hs, hc, hchild, hfree⟩

end PmmpThread.Model
