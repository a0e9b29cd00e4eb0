/-
Condition variables: threads that take and give back one recursive mutex,
change what it protects, announce that to the others, and wait for it.

# Waiting

`pthread_cond_wait` gives the mutex back once and takes it again before it
returns; a thread that holds the mutex more than once keeps it meanwhile.
It returns for any reason, so code that waits for something tests it again
(`waitWhile`). The test and the wait are two steps. A thread that does not
hold the mutex is not put to sleep.

# What is proved

A thread that sleeps although it would not have to wait is about to be
notified by the one that holds the mutex, if every change is announced
before the mutex is given back (`Disciplined`). So when the mutex is free
the two next steps of a waiting thread end its wait if they can
(`wait_ends`). A thread that waits with the mutex taken twice waits for
good (`wait_nested`).
-/
import Mathlib.Logic.Relation
import Mathlib.Logic.Function.Basic

namespace PmmpThread.Pthread

variable {T σ : Type} [DecidableEq T]

/-- What a thread does with the mutex, the value it protects and the
condition variable. -/
inductive CondOp (σ : Type) where
  | lock
  | unlock
  | set (f : σ → σ)
  | broadcast
  | signal
  /-- `while (p) pthread_cond_wait(...)`, until one of them fails. -/
  | waitWhile (p : σ → Bool)
  /-- `pthread_cond_wait` once. -/
  | wait

/-- `tested` is between the test of a loop and its wait; a thread that was
`notified` has to take the mutex again. -/
inductive CondPhase where
  | running
  | tested
  | asleep
  | notified
  deriving DecidableEq

/-- The threads, each with the code it has still to run, and the mutex with
its holder and the number of times it was taken again. -/
structure Cond (T σ : Type) where
  code : T → List (CondOp σ)
  phase : T → CondPhase
  owner : Option (T × Nat)
  value : σ

/-- The next step of a thread, which says whom a signal reaches, or a
spurious wake-up. -/
inductive CondAct (T : Type) where
  | run (t : T) (reaches : Option T)
  | wake (t : T)

namespace Cond

/-- `pthread_mutex_lock` by `t`; `none` while another thread holds it. -/
def acquire (owner : Option (T × Nat)) (t : T) : Option (T × Nat) :=
  match owner with
  | none => some (t, 0)
  | some (u, n) => if u = t then some (t, n + 1) else none

/-- `pthread_mutex_unlock` by `t`; `none` if it is not the holder. -/
def giveBack (owner : Option (T × Nat)) (t : T) : Option (Option (T × Nat)) :=
  match owner with
  | some (u, n) =>
      if u = t then
        some (match n with
          | 0 => none
          | n + 1 => some (t, n))
      else none
  | none => none

/-- How many times a thread holds the mutex. -/
def timesBy (t : T) : Option (T × Nat) → Nat
  | some (u, n) => if u = t then n + 1 else 0
  | none => 0

/-- The thread goes on with `rest`. -/
def advance (s : Cond T σ) (t : T) (rest : List (CondOp σ)) : Cond T σ :=
  { s with
    code := Function.update s.code t rest
    phase := Function.update s.phase t .running }

/-- `pthread_cond_wait` by `t`, up to its sleep; `rest` is where it goes on
if it fails. -/
def sleep (s : Cond T σ) (t : T) (rest : List (CondOp σ)) : Cond T σ :=
  match giveBack s.owner t with
  | some o => { s with
      owner := o
      phase := Function.update s.phase t .asleep }
  | none => s.advance t rest

/-- The code behind a wait that has returned. -/
def afterWait : List (CondOp σ) → List (CondOp σ)
  | .wait :: rest => rest
  | code => code

/-- A notification that reaches `u`. -/
def notifyOne (phase : T → CondPhase) (u : T) : T → CondPhase :=
  if phase u = .asleep then Function.update phase u .notified else phase

/-- One that reaches every thread that is asleep. -/
def notifyAll (phase : T → CondPhase) (u : T) : CondPhase :=
  if phase u = .asleep then .notified else phase u

/-- The next operation of a running thread. A signal may reach nobody; what
is proved here does not rely on it. -/
def runOp (s : Cond T σ) (t : T) (reaches : Option T) : Option (Cond T σ) :=
  match s.code t with
  | [] => none
  | .lock :: rest => (acquire s.owner t).map fun o =>
      { s with owner := some o }.advance t rest
  | .unlock :: rest =>
      some ({ s with owner := (giveBack s.owner t).getD s.owner }.advance
        t rest)
  | .set f :: rest => some ({ s with value := f s.value }.advance t rest)
  | .broadcast :: rest =>
      some ({ s with phase := notifyAll s.phase }.advance t rest)
  | .signal :: rest =>
      some ({ s with
        phase := reaches.elim s.phase (notifyOne s.phase) }.advance t rest)
  | .waitWhile p :: rest => (acquire s.owner t).map fun _ =>
      if p s.value then
        { s with phase := Function.update s.phase t .tested }
      else s.advance t rest
  | .wait :: rest => some (s.sleep t rest)

/-- A step of the system; `none` when the thread has to wait. -/
def step (s : Cond T σ) : CondAct T → Option (Cond T σ)
  | .run t reaches =>
      match s.phase t with
      | .running => s.runOp t reaches
      | .tested => some (s.sleep t (s.code t).tail)
      | .asleep => none
      | .notified => (acquire s.owner t).map fun o =>
          { s with owner := some o }.advance t (afterWait (s.code t))
  | .wake t =>
      if s.phase t = .asleep then
        some { s with phase := Function.update s.phase t .notified }
      else none

/-- Every change is announced at once. -/
def Announces : List (CondOp σ) → Prop
  | [] => True
  | .set _ :: rest => (∃ rest', rest = .broadcast :: rest') ∧ Announces rest
  | _ :: rest => Announces rest

/-- Code that runs with the mutex taken `n` times gives back what it has
taken and no more, and changes and tests the value only with the mutex. -/
def Guarded : Nat → List (CondOp σ) → Prop
  | n, [] => n = 0
  | n, .lock :: rest => Guarded (n + 1) rest
  | n, .unlock :: rest => 0 < n ∧ Guarded (n - 1) rest
  | n, .set _ :: rest => 0 < n ∧ Guarded n rest
  | n, .waitWhile _ :: rest => 0 < n ∧ Guarded n rest
  | n, .broadcast :: rest => Guarded n rest
  | n, .signal :: rest => Guarded n rest
  | n, .wait :: rest => Guarded n rest

/-- How many times a thread will hold the mutex when its wait, if it is in
one, has returned. -/
def held (s : Cond T σ) (t : T) : Nat :=
  timesBy t s.owner
    + if s.phase t = .asleep ∨ s.phase t = .notified then 1 else 0

/-- A state before anything has happened. -/
structure Start (s : Cond T σ) : Prop where
  running : ∀ t, s.phase t = .running
  free : s.owner = none
  announces : ∀ t, Announces (s.code t)
  guarded : ∀ t, Guarded 0 (s.code t)

def Steps (s s' : Cond T σ) : Prop := ∃ act, s.step act = some s'

/-- The state after a sequence of steps. -/
def run (s : Cond T σ) (acts : List (CondAct T)) : Option (Cond T σ) :=
  acts.foldlM step s

/-- A state that some run from a start reaches. -/
def Reachable (s : Cond T σ) : Prop :=
  ∃ s₀ : Cond T σ, s₀.Start ∧ Relation.ReflTransGen Steps s₀ s

-- ============================================================ the mutex

theorem timesBy_self (t : T) (n : Nat) : timesBy t (some (t, n)) = n + 1 :=
  if_pos rfl

theorem timesBy_other {t u : T} (h : u ≠ t) (n : Nat) :
    timesBy t (some (u, n)) = 0 := if_neg h

/-- One thread at most holds the mutex. -/
theorem timesBy_pos {t : T} {o : Option (T × Nat)} (h : 0 < timesBy t o) :
    (∃ n, o = some (t, n)) ∧ ∀ u, u ≠ t → timesBy u o = 0 := by
  cases o with
  | none => cases h
  | some q =>
      obtain ⟨v, n⟩ := q
      by_cases hv : v = t
      · subst hv
        exact ⟨⟨n, rfl⟩, fun u hu => timesBy_other hu.symm n⟩
      · rw [timesBy_other hv] at h
        cases h

theorem acquire_spec {o : Option (T × Nat)} {t : T} {q : T × Nat}
    (h : acquire o t = some q) :
    timesBy t (some q) = timesBy t o + 1
      ∧ ∀ u, u ≠ t → timesBy u (some q) = timesBy u o := by
  cases o with
  | none =>
      injection h with h
      subst h
      exact ⟨timesBy_self t 0, fun u hu => timesBy_other hu.symm 0⟩
  | some r =>
      obtain ⟨v, n⟩ := r
      simp only [acquire] at h
      split at h
      · next hv =>
          injection h with h
          subst h hv
          refine ⟨by rw [timesBy_self, timesBy_self], fun u hu => ?_⟩
          rw [timesBy_other hu.symm, timesBy_other hu.symm]
      · cases h

theorem giveBack_spec {o o' : Option (T × Nat)} {t : T}
    (h : giveBack o t = some o') :
    timesBy t o' + 1 = timesBy t o
      ∧ ∀ u, u ≠ t → timesBy u o' = timesBy u o := by
  cases o with
  | none => cases h
  | some r =>
      obtain ⟨v, n⟩ := r
      simp only [giveBack] at h
      split at h
      · next hv =>
          injection h with h
          subst h hv
          cases n with
          | zero =>
              exact ⟨(timesBy_self v 0).symm,
                fun u hu => (timesBy_other hu.symm 0).symm⟩
          | succ n =>
              refine ⟨by rw [timesBy_self, timesBy_self], fun u hu => ?_⟩
              rw [timesBy_other hu.symm, timesBy_other hu.symm]
      · cases h

theorem giveBack_isSome {o : Option (T × Nat)} {t : T}
    (h : 0 < timesBy t o) : ∃ o', giveBack o t = some o' := by
  obtain ⟨⟨n, rfl⟩, -⟩ := timesBy_pos h
  exact ⟨_, if_pos rfl⟩

-- ======================================================== what a step does

/-- The step of `t` leaves the others where they are, but for those it
wakes. -/
structure Touches (t : T) (s s' : Cond T σ) : Prop where
  code : ∀ u, u ≠ t → s'.code u = s.code u
  phase : ∀ u, u ≠ t → s'.phase u = s.phase u
    ∨ s.phase u = .asleep ∧ s'.phase u = .notified
  times : ∀ u, u ≠ t → timesBy u s'.owner = timesBy u s.owner

variable {s s' : Cond T σ} {t u : T} {rest : List (CondOp σ)}

theorem Touches.held (h : Touches t s s') (hu : u ≠ t) :
    s'.held u = s.held u := by
  unfold Cond.held
  rw [h.times u hu]
  rcases h.phase u hu with hp | ⟨hp, hp'⟩
  · rw [hp]
  · simp [hp, hp']

/-- Threads are asleep after a step that were so before it. -/
theorem Touches.asleep (h : Touches t s s') (hu : u ≠ t)
    (hp : s'.phase u = .asleep) : s.phase u = .asleep := by
  rcases h.phase u hu with hs | ⟨hs, -⟩
  · rw [← hs, hp]
  · exact hs

theorem Touches.same (h : Touches t s s') (hu : u ≠ t)
    (hp : s'.phase u ≠ .notified) : s'.phase u = s.phase u := by
  rcases h.phase u hu with hs | ⟨-, hs⟩
  · exact hs
  · exact absurd hs hp

theorem touches_advance (t : T) (rest : List (CondOp σ))
    (s : Cond T σ) : Touches t s (s.advance t rest) where
  code _ hu := Function.update_of_ne hu _ _
  phase _ hu := Or.inl (Function.update_of_ne hu _ _)
  times _ _ := rfl

theorem Touches.trans {s'' : Cond T σ} (h : Touches t s s')
    (h' : Touches t s' s'') (hn : ∀ u, u ≠ t → s''.phase u = s'.phase u) :
    Touches t s s'' where
  code u hu := (h'.code u hu).trans (h.code u hu)
  phase u hu := by
    rw [hn u hu]
    exact h.phase u hu
  times u hu := (h'.times u hu).trans (h.times u hu)

/-- A step after which `t` goes on with `rest`. -/
theorem Touches.advance (h : Touches t s s') (rest : List (CondOp σ)) :
    Touches t s (s'.advance t rest) :=
  h.trans (touches_advance t rest s') fun _ hu =>
    Function.update_of_ne hu _ _

@[simp] theorem advance_code (s : Cond T σ) (t : T)
    (rest : List (CondOp σ)) : (s.advance t rest).code t = rest :=
  Function.update_self _ _ _

@[simp] theorem advance_phase (s : Cond T σ) (t : T)
    (rest : List (CondOp σ)) : (s.advance t rest).phase t = .running :=
  Function.update_self _ _ _

@[simp] theorem advance_owner (s : Cond T σ) (t : T)
    (rest : List (CondOp σ)) : (s.advance t rest).owner = s.owner := rfl

@[simp] theorem advance_value (s : Cond T σ) (t : T)
    (rest : List (CondOp σ)) : (s.advance t rest).value = s.value := rfl

theorem held_running (h : s.phase t = .running ∨ s.phase t = .tested) :
    s.held t = timesBy t s.owner := by
  unfold held
  rcases h with h | h <;> simp [h]

theorem held_advance (s : Cond T σ) (t : T) (rest : List (CondOp σ)) :
    (s.advance t rest).held t = timesBy t s.owner :=
  held_running (Or.inl (advance_phase s t rest))

theorem announces_tail {op : CondOp σ} (h : Announces (op :: rest)) :
    Announces rest := by
  cases op with
  | set f => exact h.2
  | _ => exact h

theorem guarded_afterWait {n : Nat} {code : List (CondOp σ)}
    (h : Guarded n code) : Guarded n (afterWait code) := by
  unfold afterWait
  split
  · exact h
  · exact h

theorem announces_afterWait {code : List (CondOp σ)} (h : Announces code) :
    Announces (afterWait code) := by
  unfold afterWait
  split
  · exact h
  · exact h

-- ======================================================== the invariant

/-- A thread that holds the mutex notifies the others with its next
step. -/
def Announcing (s : Cond T σ) : Prop :=
  ∃ t rest, 0 < timesBy t s.owner ∧ s.phase t = .running
    ∧ s.code t = .broadcast :: rest

structure Disciplined (s : Cond T σ) : Prop where
  announces : ∀ t, Announces (s.code t)
  guarded : ∀ t, Guarded (s.held t) (s.code t)
  tested : ∀ t, s.phase t = .tested →
    ∃ p rest, s.code t = .waitWhile p :: rest ∧ p s.value = true
  asleep : ∀ t p rest, s.phase t = .asleep →
    s.code t = .waitWhile p :: rest → p s.value = true ∨ s.Announcing

theorem Start.disciplined (h : s.Start) : s.Disciplined where
  announces := h.announces
  guarded t := by
    rw [held_running (Or.inl (h.running t)), h.free]
    exact h.guarded t
  tested t ht := by
    rw [h.running t] at ht
    cases ht
  asleep t p rest ht := by
    rw [h.running t] at ht
    cases ht

/-- An announcement that is due stays due until it is made. -/
theorem Announcing.touch (ha : s.Announcing) (ht : Touches t s s')
    (hb : s.phase t = .running → ∀ rest, s.code t ≠ .broadcast :: rest) :
    s'.Announcing := by
  obtain ⟨u, rest, hu, hp, hc⟩ := ha
  by_cases hut : u = t
  · rw [hut] at hp hc
    exact absurd hc (hb hp rest)
  · refine ⟨u, rest, ?_, ?_, (ht.code u hut).trans hc⟩
    · rw [ht.times u hut]
      exact hu
    · rcases ht.phase u hut with h | ⟨h, -⟩
      · rw [h, hp]
      · rw [hp] at h
        cases h

/-- What has to be seen of a step of `t`: that `t` itself is left well, and
that the tests of the others still stand or are announced to be off. -/
theorem Disciplined.touch (hd : s.Disciplined) (ht : Touches t s s')
    (hannounces : Announces (s'.code t))
    (hguarded : Guarded (s'.held t) (s'.code t))
    (htested : s'.phase t = .tested →
      ∃ p rest, s'.code t = .waitWhile p :: rest ∧ p s'.value = true)
    (hasleep : s'.phase t = .asleep → ∀ p rest,
      s'.code t = .waitWhile p :: rest → p s'.value = true ∨ s'.Announcing)
    (hothers : ∀ u, u ≠ t → ∀ p rest, s.code u = .waitWhile p :: rest →
      p s.value = true → p s'.value = true
        ∨ s.phase u ≠ .tested ∧ s'.Announcing)
    (hdue : s.Announcing → s'.Announcing ∨ ∀ u, s'.phase u ≠ .asleep) :
    s'.Disciplined where
  announces u := by
    by_cases hu : u = t
    · rw [hu]
      exact hannounces
    · rw [ht.code u hu]
      exact hd.announces u
  guarded u := by
    by_cases hu : u = t
    · rw [hu]
      exact hguarded
    · rw [ht.code u hu, ht.held hu]
      exact hd.guarded u
  tested u hp := by
    by_cases hu : u = t
    · rw [hu] at hp ⊢
      exact htested hp
    · have hs : s.phase u = .tested := by
        rw [← ht.same hu (by rw [hp]; simp), hp]
      obtain ⟨p, rest, hc, hv⟩ := hd.tested u hs
      refine ⟨p, rest, (ht.code u hu).trans hc, ?_⟩
      rcases hothers u hu p rest hc hv with h | ⟨h, -⟩
      · exact h
      · exact absurd hs h
  asleep u p rest hp hc := by
    by_cases hu : u = t
    · rw [hu] at hp hc
      exact hasleep hp p rest hc
    · rw [ht.code u hu] at hc
      rcases hd.asleep u p rest (ht.asleep hu hp) hc with hv | ha
      · exact (hothers u hu p rest hc hv).imp_right And.right
      · rcases hdue ha with h | h
        · exact Or.inr h
        · exact absurd hp (h u)

/-- A step that changes nothing and announces nothing. -/
theorem Disciplined.quiet (hd : s.Disciplined) (ht : Touches t s s')
    (hvalue : s'.value = s.value)
    (hb : s.phase t = .running → ∀ rest, s.code t ≠ .broadcast :: rest)
    (hannounces : Announces (s'.code t))
    (hguarded : Guarded (s'.held t) (s'.code t))
    (htested : s'.phase t = .tested →
      ∃ p rest, s'.code t = .waitWhile p :: rest ∧ p s'.value = true)
    (hasleep : s'.phase t = .asleep → ∀ p rest,
      s'.code t = .waitWhile p :: rest → p s'.value = true) :
    s'.Disciplined := by
  refine hd.touch ht hannounces hguarded htested
    (fun h p rest hc => Or.inl (hasleep h p rest hc)) ?_
    fun ha => Or.inl (ha.touch ht hb)
  intro u _ p rest _ hv
  rw [hvalue]
  exact Or.inl hv

theorem Disciplined.quiet_advance (hd : s.Disciplined)
    {o : Option (T × Nat)} (ho : ∀ u, u ≠ t → timesBy u o = timesBy u s.owner)
    {phase : T → CondPhase}
    (hphase : ∀ u, u ≠ t → phase u = s.phase u
      ∨ s.phase u = .asleep ∧ phase u = .notified)
    (hb : s.phase t = .running → ∀ rest, s.code t ≠ .broadcast :: rest)
    (hannounces : Announces rest) (hguarded : Guarded (timesBy t o) rest) :
    ({ s with owner := o, phase := phase }.advance t rest).Disciplined := by
  have ht : Touches t s { s with owner := o, phase := phase } :=
    ⟨fun _ _ => rfl, hphase, ho⟩
  refine hd.quiet (ht.advance rest) rfl hb ?_ ?_ ?_ ?_
  · rw [advance_code]
    exact hannounces
  · rw [advance_code, held_advance]
    exact hguarded
  · rw [advance_phase]
    intro h
    cases h
  · rw [advance_phase]
    intro h
    cases h

omit [DecidableEq T] in
theorem notifyAll_phase (phase : T → CondPhase) (u : T) :
    (notifyAll phase u = phase u ∨ phase u = .asleep
      ∧ notifyAll phase u = .notified) ∧ notifyAll phase u ≠ .asleep := by
  unfold notifyAll
  split
  · next h => exact ⟨Or.inr ⟨h, rfl⟩, by simp⟩
  · next h => exact ⟨Or.inl rfl, h⟩

theorem notifyOne_phase (phase : T → CondPhase) (v u : T) :
    notifyOne phase v u = phase u ∨ phase u = .asleep
      ∧ notifyOne phase v u = .notified := by
  unfold notifyOne
  split
  · next h =>
      by_cases hu : u = v
      · rw [hu]
        exact Or.inr ⟨h, Function.update_self _ _ _⟩
      · exact Or.inl (Function.update_of_ne hu _ _)
  · exact Or.inl rfl

theorem signal_phase (phase : T → CondPhase) (reaches : Option T) (u : T) :
    reaches.elim phase (notifyOne phase) u = phase u ∨ phase u = .asleep
      ∧ reaches.elim phase (notifyOne phase) u = .notified := by
  cases reaches with
  | none => exact Or.inl rfl
  | some v => exact notifyOne_phase phase v u

/-- A thread that is put to sleep holds the mutex, so that its test
stands. -/
theorem Disciplined.sleep (hd : s.Disciplined)
    (hrun : s.phase t = .running ∨ s.phase t = .tested)
    (hb : ∀ rest, s.code t ≠ .broadcast :: rest)
    (htest : ∀ p rest, s.code t = .waitWhile p :: rest → p s.value = true)
    (hannounces : Announces rest)
    (hguarded : Guarded (timesBy t s.owner) rest) :
    (s.sleep t rest).Disciplined := by
  unfold Cond.sleep
  cases ho : giveBack s.owner t with
  | none =>
      exact hd.quiet_advance (fun _ _ => rfl) (fun _ _ => Or.inl rfl)
        (fun _ => hb) hannounces hguarded
  | some o =>
      obtain ⟨htimes, hothers⟩ := giveBack_spec ho
      refine hd.quiet ⟨fun _ _ => rfl, fun u hu => ?_, hothers⟩ rfl
        (fun _ => hb) (hd.announces t) ?_ (fun h => ?_) fun _ => htest
      · exact Or.inl (Function.update_of_ne hu _ _)
      · have hheld : ({ s with
            owner := o
            phase := Function.update s.phase t .asleep } : Cond T σ).held t
            = s.held t := by
          rw [held_running hrun, ← htimes]
          unfold held
          simp
        rw [hheld]
        exact hd.guarded t
      · simp at h

theorem Disciplined.runOp {reaches : Option T} (hd : s.Disciplined)
    (hrun : s.phase t = .running) (h : s.runOp t reaches = some s') :
    s'.Disciplined := by
  have hannounces := hd.announces t
  have hguarded := hd.guarded t
  rw [held_running (Or.inl hrun)] at hguarded
  unfold Cond.runOp at h
  cases hc : s.code t with
  | nil =>
      rw [hc] at h
      cases h
  | cons op rest =>
      rw [hc] at h hannounces hguarded
      have hrest := announces_tail hannounces
      cases op with
      | lock =>
          obtain ⟨o, ho, rfl⟩ := Option.map_eq_some_iff.mp h
          obtain ⟨htimes, hothers⟩ := acquire_spec ho
          refine hd.quiet_advance hothers (fun _ _ => Or.inl rfl)
            (fun _ => by simp [hc]) hrest ?_
          rw [htimes]
          exact hguarded
      | unlock =>
          cases h
          obtain ⟨o, ho⟩ := giveBack_isSome hguarded.1
          obtain ⟨htimes, hothers⟩ := giveBack_spec ho
          rw [ho, Option.getD_some]
          refine hd.quiet_advance hothers (fun _ _ => Or.inl rfl)
            (fun _ => by simp [hc]) hrest ?_
          have hpred : timesBy t s.owner - 1 = timesBy t o := by omega
          rw [← hpred]
          exact hguarded.2
      | set f =>
          cases h
          obtain ⟨⟨rest', hrest'⟩, -⟩ := hannounces
          have ht : Touches t s { s with value := f s.value } :=
            ⟨fun _ _ => rfl, fun _ _ => Or.inl rfl, fun _ _ => rfl⟩
          have hdue : ({ s with value := f s.value }.advance t
              rest).Announcing :=
            ⟨t, rest', hguarded.1, advance_phase _ t rest,
              (advance_code _ t rest).trans hrest'⟩
          refine hd.touch (ht.advance rest) ?_ ?_ ?_ ?_ ?_ fun _ =>
            Or.inl hdue
          · rw [advance_code]
            exact hrest
          · rw [advance_code, held_advance]
            exact hguarded.2
          · rw [advance_phase]
            intro hp
            cases hp
          · rw [advance_phase]
            intro hp
            cases hp
          · -- who is between its test and its wait holds the mutex
            refine fun u hu p rest _ _ => Or.inr ⟨fun hp => ?_, hdue⟩
            have hu0 := (timesBy_pos hguarded.1).2 u hu
            obtain ⟨p', rest'', hcu, -⟩ := hd.tested u hp
            have hgu := hd.guarded u
            rw [held_running (Or.inr hp), hu0, hcu] at hgu
            exact absurd hgu.1 (Nat.lt_irrefl 0)
      | broadcast =>
          cases h
          have ht : Touches t s { s with phase := notifyAll s.phase } :=
            ⟨fun _ _ => rfl, fun u _ => (notifyAll_phase s.phase u).1,
              fun _ _ => rfl⟩
          refine hd.touch (ht.advance rest) ?_ ?_ ?_ ?_
            (fun _ _ _ _ _ hv => Or.inl hv) fun _ => Or.inr fun u => ?_
          · rw [advance_code]
            exact hrest
          · rw [advance_code, held_advance]
            exact hguarded
          · rw [advance_phase]
            intro hp
            cases hp
          · rw [advance_phase]
            intro hp
            cases hp
          · by_cases hu : u = t
            · rw [hu, advance_phase]
              simp
            · show Function.update (notifyAll s.phase) t _ u ≠ _
              rw [Function.update_of_ne hu]
              exact (notifyAll_phase s.phase u).2
      | signal =>
          cases h
          exact hd.quiet_advance (fun _ _ => rfl)
            (fun u _ => signal_phase s.phase reaches u)
            (fun _ => by simp [hc]) hrest hguarded
      | waitWhile p =>
          obtain ⟨o, -, h⟩ := Option.map_eq_some_iff.mp h
          split at h
          · next hv =>
              subst h
              refine hd.quiet ⟨fun _ _ => rfl, fun u hu => ?_,
                fun _ _ => rfl⟩ rfl (fun _ => by simp [hc]) (hd.announces t)
                ?_ (fun _ => ⟨p, rest, hc, hv⟩) fun hp => ?_
              · exact Or.inl (Function.update_of_ne hu _ _)
              · rw [held_running (Or.inr (Function.update_self _ _ _)), hc]
                exact hguarded
              · simp at hp
          · subst h
            exact hd.quiet_advance (fun _ _ => rfl) (fun _ _ => Or.inl rfl)
              (fun _ => by simp [hc]) hrest hguarded.2
      | wait =>
          cases h
          exact hd.sleep (Or.inl hrun) (by simp [hc]) (by simp [hc]) hrest
            hguarded

theorem Disciplined.step {act : CondAct T} (hd : s.Disciplined)
    (h : s.step act = some s') : s'.Disciplined := by
  cases act with
  | run t reaches =>
      simp only [Cond.step] at h
      split at h
      · next hp => exact hd.runOp hp h
      · next hp =>
          cases h
          obtain ⟨p, rest, hc, hv⟩ := hd.tested t hp
          have hguarded := hd.guarded t
          have hannounces := hd.announces t
          rw [held_running (Or.inr hp), hc] at hguarded
          rw [hc] at hannounces
          rw [hc]
          refine hd.sleep (Or.inr hp) (by simp [hc]) (fun p' rest' hc' => ?_)
            (announces_tail hannounces) hguarded.2
          rw [hc] at hc'
          cases hc'
          exact hv
      · cases h
      · next hp =>
          obtain ⟨o, ho, rfl⟩ := Option.map_eq_some_iff.mp h
          obtain ⟨htimes, hothers⟩ := acquire_spec ho
          refine hd.quiet_advance hothers (fun _ _ => Or.inl rfl)
            (fun hr => by rw [hp] at hr; cases hr)
            (announces_afterWait (hd.announces t)) ?_
          have hheld : s.held t = timesBy t (some o) := by
            rw [htimes]
            unfold held
            simp [hp]
          rw [← hheld]
          exact guarded_afterWait (hd.guarded t)
  | wake t =>
      obtain ⟨hp, h⟩ := Option.ite_none_right_eq_some.mp h
      cases h
      refine hd.quiet ⟨fun _ _ => rfl, fun u hu => ?_, fun _ _ => rfl⟩ rfl
        (fun hr => by rw [hp] at hr; cases hr) (hd.announces t) ?_ ?_ ?_
      · exact Or.inl (Function.update_of_ne hu _ _)
      · have hheld : ({ s with
            phase := Function.update s.phase t .notified } : Cond T σ).held t
            = s.held t := by
          unfold held
          simp [hp]
        rw [hheld]
        exact hd.guarded t
      · simp
      · simp

theorem Reachable.disciplined (h : s.Reachable) : s.Disciplined := by
  obtain ⟨s₀, hs, hr⟩ := h
  induction hr with
  | refl => exact hs.disciplined
  | tail _ hstep ih =>
      obtain ⟨act, hact⟩ := hstep
      exact ih.step hact

-- ============================================================== results

variable {p : σ → Bool}

/-- A thread that has not been notified is waiting for good reason, when
nobody holds the mutex. -/
theorem Disciplined.not_missed (hd : s.Disciplined) (hfree : s.owner = none)
    (hp : s.phase t = .asleep) (hc : s.code t = .waitWhile p :: rest) :
    p s.value = true := by
  rcases hd.asleep t p rest hp hc with h | ⟨u, rest', hu, -⟩
  · exact h
  · rw [hfree] at hu
    cases hu

/-- When nobody holds the mutex, a loop that may end is ended by the two
next steps of its thread: it takes the mutex and tests. -/
theorem Disciplined.wait_ends (hd : s.Disciplined) (hfree : s.owner = none)
    (hc : s.code t = .waitWhile p :: rest) (hv : p s.value = false) :
    ∃ s₁ s₂, s.step (.run t none) = some s₁
      ∧ s₁.step (.run t none) = some s₂
      ∧ s₂.code t = rest ∧ s₂.phase t = .running
      ∧ s₂.owner = some (t, 0) ∧ s₂.value = s.value := by
  have hguarded := hd.guarded t
  rw [hc] at hguarded
  have hnone : timesBy t s.owner = 0 := by
    rw [hfree]
    rfl
  have hphase : s.phase t = .notified := by
    cases hp : s.phase t with
    | running =>
        rw [held_running (Or.inl hp), hnone] at hguarded
        exact absurd hguarded.1 (Nat.lt_irrefl 0)
    | tested =>
        rw [held_running (Or.inr hp), hnone] at hguarded
        exact absurd hguarded.1 (Nat.lt_irrefl 0)
    | asleep =>
        rw [hd.not_missed hfree hp hc] at hv
        cases hv
    | notified => rfl
  let s₁ : Cond T σ :=
    { s with owner := some (t, 0) }.advance t (.waitWhile p :: rest)
  refine ⟨s₁, s₁.advance t rest, ?_, ?_, advance_code _ t rest,
    advance_phase _ t rest, rfl, rfl⟩
  · simp only [Cond.step, hphase, hfree, hc]
    rfl
  · simp only [s₁, Cond.step, advance_phase, Cond.runOp, advance_code,
      advance_owner, advance_value, acquire, if_true, Option.map_some, hv,
      Bool.false_eq_true, if_false]

theorem touches_sleep (s : Cond T σ) (t : T) (rest : List (CondOp σ)) :
    Touches t s (s.sleep t rest) ∧ (s.sleep t rest).value = s.value := by
  unfold Cond.sleep
  cases ho : giveBack s.owner t with
  | none => exact ⟨touches_advance t rest s, rfl⟩
  | some o =>
      refine ⟨⟨fun _ _ => rfl, fun u hu => ?_, (giveBack_spec ho).2⟩, rfl⟩
      exact Or.inl (Function.update_of_ne hu _ _)

/-- What others see of an operation. -/
theorem runOp_touches {reaches : Option T}
    (h : s.runOp t reaches = some s') :
    Touches t s s' ∧ (s'.value = s.value
      ∨ ∃ f rest, s.code t = .set f :: rest) := by
  unfold Cond.runOp at h
  cases hc : s.code t with
  | nil =>
      rw [hc] at h
      cases h
  | cons op rest =>
      rw [hc] at h
      cases op with
      | lock =>
          obtain ⟨o, ho, rfl⟩ := Option.map_eq_some_iff.mp h
          have ht : Touches t s { s with owner := some o } :=
            ⟨fun _ _ => rfl, fun _ _ => Or.inl rfl, (acquire_spec ho).2⟩
          exact ⟨ht.advance rest, Or.inl rfl⟩
      | unlock =>
          cases h
          have ht : Touches t s
              { s with owner := (giveBack s.owner t).getD s.owner } := by
            refine ⟨fun _ _ => rfl, fun _ _ => Or.inl rfl, fun u hu => ?_⟩
            cases ho : giveBack s.owner t with
            | none => rfl
            | some o => exact (giveBack_spec ho).2 u hu
          exact ⟨ht.advance rest, Or.inl rfl⟩
      | set f =>
          cases h
          have ht : Touches t s { s with value := f s.value } :=
            ⟨fun _ _ => rfl, fun _ _ => Or.inl rfl, fun _ _ => rfl⟩
          exact ⟨ht.advance rest, Or.inr ⟨f, rest, rfl⟩⟩
      | broadcast =>
          cases h
          have ht : Touches t s { s with phase := notifyAll s.phase } :=
            ⟨fun _ _ => rfl, fun u _ => (notifyAll_phase s.phase u).1,
              fun _ _ => rfl⟩
          exact ⟨ht.advance rest, Or.inl rfl⟩
      | signal =>
          cases h
          have ht : Touches t s { s with
              phase := reaches.elim s.phase (notifyOne s.phase) } :=
            ⟨fun _ _ => rfl, fun u _ => signal_phase s.phase reaches u,
              fun _ _ => rfl⟩
          exact ⟨ht.advance rest, Or.inl rfl⟩
      | waitWhile p =>
          obtain ⟨o, -, h⟩ := Option.map_eq_some_iff.mp h
          split at h
          · subst h
            refine ⟨⟨fun _ _ => rfl, fun u hu => ?_, fun _ _ => rfl⟩,
              Or.inl rfl⟩
            exact Or.inl (Function.update_of_ne hu _ _)
          · subst h
            exact ⟨touches_advance t rest s, Or.inl rfl⟩
      | wait =>
          cases h
          exact ⟨(touches_sleep s t rest).1, Or.inl (touches_sleep s t rest).2⟩

/-- A step of a thread leaves the others, and changes the value only where
its code says so. -/
theorem run_touches {reaches : Option T}
    (h : s.step (.run t reaches) = some s') :
    Touches t s s' ∧ (s'.value = s.value
      ∨ s.phase t = .running ∧ ∃ f rest, s.code t = .set f :: rest) := by
  simp only [Cond.step] at h
  split at h
  · next hp =>
      obtain ⟨ht, hv⟩ := runOp_touches h
      exact ⟨ht, hv.imp_right fun hv => ⟨hp, hv⟩⟩
  · cases h
    exact ⟨(touches_sleep s t _).1, Or.inl (touches_sleep s t _).2⟩
  · cases h
  · obtain ⟨o, ho, rfl⟩ := Option.map_eq_some_iff.mp h
    have ht : Touches t s { s with owner := some o } :=
      ⟨fun _ _ => rfl, fun _ _ => Or.inl rfl, (acquire_spec ho).2⟩
    exact ⟨ht.advance _, Or.inl rfl⟩

/-- In a loop, with the mutex taken more than once. -/
structure Nested (t : T) (p : σ → Bool) (rest : List (CondOp σ))
    (s : Cond T σ) : Prop where
  disciplined : s.Disciplined
  code : s.code t = .waitWhile p :: rest
  waits : p s.value = true
  held : 2 ≤ s.held t

/-- The mutex stays with the thread, asleep or not. -/
theorem Nested.owner (hn : Nested t p rest s) : 0 < timesBy t s.owner := by
  have h := hn.held
  unfold Cond.held at h
  split at h <;> omega

theorem Nested.others (hn : Nested t p rest s) (hu : u ≠ t) :
    timesBy u s.owner = 0 := (timesBy_pos hn.owner).2 u hu

theorem Nested.sleeps (hn : Nested t p rest s) (hp : s.phase t = .tested) :
    Nested t p rest (s.sleep t rest) ∧ (s.sleep t rest).value = s.value := by
  obtain ⟨o, ho⟩ := giveBack_isSome hn.owner
  obtain ⟨htimes, -⟩ := giveBack_spec ho
  have hstep : s.step (.run t none) = some (s.sleep t rest) := by
    simp only [Cond.step, hp, hn.code, List.tail_cons]
  have hd := hn.disciplined.step hstep
  have hheld := hn.held
  rw [held_running (Or.inr hp), ← htimes] at hheld
  refine ⟨⟨hd, ?_, ?_, ?_⟩, (touches_sleep s t rest).2⟩
  · unfold Cond.sleep
    rw [ho]
    exact hn.code
  · rw [(touches_sleep s t rest).2]
    exact hn.waits
  · unfold Cond.sleep
    rw [ho]
    unfold Cond.held
    simpa using hheld

/-- Nothing that the others or the thread itself do gets it out. -/
theorem Nested.step {act : CondAct T} (hn : Nested t p rest s)
    (h : s.step act = some s') :
    Nested t p rest s' ∧ s'.value = s.value := by
  have hd := hn.disciplined.step h
  cases act with
  | wake u =>
      obtain ⟨hp, h⟩ := Option.ite_none_right_eq_some.mp h
      cases h
      refine ⟨⟨hd, hn.code, hn.waits, ?_⟩, rfl⟩
      by_cases hu : t = u
      · subst hu
        have hheld := hn.held
        unfold Cond.held at hheld ⊢
        simpa [hp] using hheld
      · have ht : Touches u s { s with
            phase := Function.update s.phase u .notified } :=
          ⟨fun _ _ => rfl, fun v hv => Or.inl (Function.update_of_ne hv _ _),
            fun _ _ => rfl⟩
        rw [ht.held hu]
        exact hn.held
  | run u reaches =>
      by_cases hu : u = t
      · subst hu
        simp only [Cond.step] at h
        split at h
        · next hp =>
            simp only [Cond.runOp, hn.code, hn.waits, if_true] at h
            obtain ⟨o, -, rfl⟩ := Option.map_eq_some_iff.mp h
            refine ⟨⟨hd, hn.code, hn.waits, ?_⟩, rfl⟩
            have hheld := hn.held
            rw [held_running (Or.inl hp)] at hheld
            rw [held_running (Or.inr (Function.update_self _ _ _))]
            exact hheld
        · next hp =>
            cases h
            rw [hn.code, List.tail_cons]
            exact hn.sleeps hp
        · cases h
        · next hp =>
            obtain ⟨o, ho, rfl⟩ := Option.map_eq_some_iff.mp h
            refine ⟨⟨hd, ?_, hn.waits, ?_⟩, rfl⟩
            · rw [advance_code, hn.code]
              rfl
            · have hheld := hn.held
              unfold Cond.held at hheld
              rw [held_advance]
              rw [(acquire_spec ho).1]
              simpa [hp] using hheld
      · obtain ⟨ht, hv⟩ := run_touches h
        have hvalue : s'.value = s.value := by
          rcases hv with hv | ⟨hp, f, rest', hc⟩
          · exact hv
          · have hg := hn.disciplined.guarded u
            rw [held_running (Or.inl hp), hn.others hu, hc] at hg
            exact absurd hg.1 (Nat.lt_irrefl 0)
        have htu : t ≠ u := fun h => hu h.symm
        refine ⟨⟨hd, (ht.code t htu).trans hn.code, ?_, ?_⟩, hvalue⟩
        · rw [hvalue]
          exact hn.waits
        · rw [ht.held htu]
          exact hn.held

/-- A thread that waits with the mutex taken more than once never goes on,
and nobody else ever has the mutex. -/
theorem Nested.run (hn : Nested t p rest s)
    (h : Relation.ReflTransGen Steps s s') :
    Nested t p rest s' ∧ s'.value = s.value := by
  induction h with
  | refl => exact ⟨hn, rfl⟩
  | tail _ hstep ih =>
      obtain ⟨act, hact⟩ := hstep
      obtain ⟨hn', hv⟩ := ih.1.step hact
      exact ⟨hn', hv.trans ih.2⟩

theorem steps_of_run : ∀ (acts : List (CondAct T)) {s s' : Cond T σ},
    s.run acts = some s' → Relation.ReflTransGen Steps s s'
  | [], s, s', h => by
      cases h
      exact .refl
  | act :: acts, s, s', h => by
      obtain ⟨s₁, hact, h⟩ := Option.bind_eq_some_iff.mp h
      exact (steps_of_run acts h).head ⟨act, hact⟩

end Cond

end PmmpThread.Pthread
