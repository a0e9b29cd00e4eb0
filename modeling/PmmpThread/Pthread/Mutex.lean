/-
Recursive mutexes (`PTHREAD_MUTEX_RECURSIVE`) and threads that take and
release them, and when two threads can come to wait for each other.

# Shape

A thread is the list of lock operations it has still to do. A thread
that comes to a mutex another one holds does not step.

# Crossing

Two threads are crossed at the mutexes `a` and `b` when one holds `a`
and will take `b` before it gives `a` back, and the other holds `b` and
will take `a` before it gives `b` back. Crossed threads stay crossed:
neither can get past the other's mutex. A deadlock at `a` and `b` is a
crossing in which both are at that point, so a run that never makes a
crossing never comes to one.
-/
import Mathlib.Logic.Relation
import Mathlib.Logic.Function.Basic

namespace PmmpThread.Pthread

variable {T L : Type} [DecidableEq T] [DecidableEq L]

inductive LockOp (L : Type) where
  | lock (l : L)
  | unlock (l : L)
  deriving DecidableEq

/-- The code each thread has still to run, and who holds each mutex, with
the number of times it was taken again. -/
structure Sched (T L : Type) where
  code : T → List (LockOp L)
  owner : L → Option (T × Nat)

namespace Sched

/-- How many times `t` holds a mutex with this holder. -/
def timesBy (t : T) : Option (T × Nat) → Nat
  | some (u, n) => if u = t then n + 1 else 0
  | none => 0

/-- How many times the thread holds the mutex. -/
def depth (s : Sched T L) (t : T) (l : L) : Nat := timesBy t (s.owner l)

/-- `pthread_mutex_lock` by `t`; `none` while another thread holds it. -/
def acquire (s : Sched T L) (t : T) (l : L) : Option (T × Nat) :=
  match s.owner l with
  | none => some (t, 0)
  | some (u, n) => if u = t then some (t, n + 1) else none

/-- `pthread_mutex_unlock` by `t`; `none` if it is not the holder. -/
def giveBack (s : Sched T L) (t : T) (l : L) : Option (Option (T × Nat)) :=
  match s.owner l with
  | some (u, n) =>
      if u = t then
        some (match n with
          | 0 => none
          | n + 1 => some (t, n))
      else none
  | none => none

/-- The next lock operation of thread `t`. -/
def step (s : Sched T L) (t : T) : Option (Sched T L) :=
  match s.code t with
  | [] => none
  | .lock l :: rest => (s.acquire t l).map fun o =>
      ⟨Function.update s.code t rest, Function.update s.owner l (some o)⟩
  | .unlock l :: rest => (s.giveBack t l).map fun o =>
      ⟨Function.update s.code t rest, Function.update s.owner l o⟩

-- ========================================================= what a step does

theorem timesBy_self (t : T) (n : Nat) :
    timesBy t (some (t, n)) = n + 1 := if_pos rfl

theorem timesBy_other {t u : T} (h : u ≠ t) (n : Nat) :
    timesBy t (some (u, n)) = 0 := if_neg h

/-- The operations of other threads on this mutex, and all on other
mutexes, are as before. -/
theorem depth_update {s s' : Sched T L} {l : L} {o : Option (T × Nat)}
    (h : s'.owner = Function.update s.owner l o) (u : T) (m : L) :
    s'.depth u m = if m = l then timesBy u o else s.depth u m := by
  unfold depth
  rw [h, Function.update_apply]
  split <;> rfl

/-- A thread that takes a mutex finds it free or its own. -/
theorem step_lock {s s' : Sched T L} {t : T} {l : L}
    {rest : List (LockOp L)} (h : s.step t = some s')
    (hc : s.code t = .lock l :: rest) :
    s'.code = Function.update s.code t rest
      ∧ s'.depth t l = s.depth t l + 1
      ∧ (∀ u, u ≠ t → s.depth u l = 0 ∧ s'.depth u l = 0)
      ∧ ∀ u m, m ≠ l → s'.depth u m = s.depth u m := by
  unfold step at h
  rw [hc] at h
  obtain ⟨o, ho, hs'⟩ := Option.map_eq_some_iff.mp h
  have hd := depth_update (congrArg Sched.owner hs').symm
  have hl : ∀ u, s'.depth u l = timesBy u (some o) := by
    intro u
    rw [hd, if_pos rfl]
  have hold : ∀ u, timesBy u (s.owner l) = s.depth u l := fun _ => rfl
  refine ⟨(congrArg Sched.code hs').symm, ?_, fun u hu => ?_,
    fun u m hm => by rw [hd, if_neg hm]⟩
  · rw [hl, ← hold]
    unfold acquire at ho
    cases howner : s.owner l with
    | none =>
        simp only [howner] at ho
        rw [← Option.some.inj ho, timesBy_self]
        rfl
    | some q =>
        obtain ⟨v, n⟩ := q
        simp only [howner] at ho
        split at ho
        case isFalse => cases ho
        case isTrue hv => rw [← Option.some.inj ho, hv, timesBy_self,
          timesBy_self]
  · rw [hl, ← hold]
    unfold acquire at ho
    cases howner : s.owner l with
    | none =>
        simp only [howner] at ho
        rw [← Option.some.inj ho]
        exact ⟨rfl, timesBy_other hu.symm 0⟩
    | some q =>
        obtain ⟨v, n⟩ := q
        simp only [howner] at ho
        split at ho
        case isFalse => cases ho
        case isTrue hv =>
          rw [← Option.some.inj ho, hv]
          exact ⟨timesBy_other hu.symm n, timesBy_other hu.symm (n + 1)⟩

/-- A thread that releases a mutex holds it. -/
theorem step_unlock {s s' : Sched T L} {t : T} {l : L}
    {rest : List (LockOp L)} (h : s.step t = some s')
    (hc : s.code t = .unlock l :: rest) :
    s'.code = Function.update s.code t rest
      ∧ s'.depth t l + 1 = s.depth t l
      ∧ (∀ u, u ≠ t → s'.depth u l = s.depth u l)
      ∧ ∀ u m, m ≠ l → s'.depth u m = s.depth u m := by
  unfold step at h
  rw [hc] at h
  obtain ⟨o, ho, hs'⟩ := Option.map_eq_some_iff.mp h
  have hd := depth_update (congrArg Sched.owner hs').symm
  have hl : ∀ u, s'.depth u l = timesBy u o := by
    intro u
    rw [hd, if_pos rfl]
  have hold : ∀ u, timesBy u (s.owner l) = s.depth u l := fun _ => rfl
  unfold giveBack at ho
  cases howner : s.owner l with
  | none =>
      simp only [howner] at ho
      cases ho
  | some q =>
      obtain ⟨v, n⟩ := q
      simp only [howner] at ho
      split at ho
      case isFalse => cases ho
      case isTrue hv =>
        refine ⟨(congrArg Sched.code hs').symm, ?_, fun u hu => ?_,
          fun u m hm => by rw [hd, if_neg hm]⟩
        · rw [hl, ← hold, howner, hv, timesBy_self, ← Option.some.inj ho]
          cases n with
          | zero => rfl
          | succ n => rw [timesBy_self]
        · rw [hl, ← hold, howner, hv, timesBy_other hu.symm,
            ← Option.some.inj ho]
          cases n with
          | zero => rfl
          | succ n => exact timesBy_other hu.symm n

theorem step_cons {s s' : Sched T L} {t : T} (h : s.step t = some s') :
    (∃ l rest, s.code t = .lock l :: rest)
      ∨ ∃ l rest, s.code t = .unlock l :: rest := by
  cases hc : s.code t with
  | nil =>
      unfold step at h
      rw [hc] at h
      cases h
  | cons e rest =>
      cases e with
      | lock l => exact Or.inl ⟨l, rest, rfl⟩
      | unlock l => exact Or.inr ⟨l, rest, rfl⟩

/-- A step changes nothing for the other threads. -/
theorem step_other {s s' : Sched T L} {t u : T} (h : s.step t = some s')
    (hu : u ≠ t) :
    s'.code u = s.code u ∧ ∀ m, s'.depth u m = s.depth u m := by
  rcases step_cons h with ⟨l, rest, hc⟩ | ⟨l, rest, hc⟩
  · obtain ⟨hcode, -, hl, hm⟩ := step_lock h hc
    refine ⟨by rw [hcode, Function.update_of_ne hu], fun m => ?_⟩
    by_cases hml : m = l
    · rw [hml, (hl u hu).1, (hl u hu).2]
    · exact hm u m hml
  · obtain ⟨hcode, -, hl, hm⟩ := step_unlock h hc
    refine ⟨by rw [hcode, Function.update_of_ne hu], fun m => ?_⟩
    by_cases hml : m = l
    · rw [hml]
      exact hl u hu
    · exact hm u m hml

-- ============================================================= crossing

/-- Code that holds `held` `n` times takes `want` before it has given
`held` back. -/
def willTake (held want : L) : Nat → List (LockOp L) → Bool
  | 0, _ => false
  | _ + 1, [] => false
  | n + 1, .lock l :: rest =>
      if l = want then true
      else if l = held then willTake held want (n + 2) rest
      else willTake held want (n + 1) rest
  | n + 1, .unlock l :: rest =>
      if l = held then willTake held want n rest
      else willTake held want (n + 1) rest

/-- Thread `t` holds `a` and will take `b` before it gives `a` back. -/
def Heads (s : Sched T L) (a b : L) (t : T) : Prop :=
  willTake a b (s.depth t a) (s.code t) = true

/-- Two threads that will wait for each other. -/
structure Crossed (s : Sched T L) (a b : L) (t u : T) : Prop where
  ne : t ≠ u
  first : s.Heads a b t
  second : s.Heads b a u

/-- Two threads that wait for each other. -/
structure Deadlock (s : Sched T L) (a b : L) (t u : T) : Prop where
  ne : t ≠ u
  holds : 0 < s.depth t a
  waits : ∃ rest, s.code t = .lock b :: rest
  holds' : 0 < s.depth u b
  waits' : ∃ rest, s.code u = .lock a :: rest

theorem heads_of_waits {s : Sched T L} {a b : L} {t : T}
    (h : 0 < s.depth t a) (hc : ∃ rest, s.code t = .lock b :: rest) :
    s.Heads a b t := by
  obtain ⟨rest, hc⟩ := hc
  unfold Heads
  rw [hc]
  cases hd : s.depth t a with
  | zero => omega
  | succ n =>
      unfold willTake
      exact if_pos rfl

theorem Deadlock.crossed {s : Sched T L} {a b : L} {t u : T}
    (h : s.Deadlock a b t u) : s.Crossed a b t u :=
  ⟨h.ne, heads_of_waits h.holds h.waits, heads_of_waits h.holds' h.waits'⟩

/-- The step of `t` takes `a` on its way to `b` only while no other
thread has `b` on its way to `a`. -/
def Orderly (s : Sched T L) (a b : L) (t : T) : Prop :=
  ∀ rest, s.code t = .lock a :: rest → s.depth t a = 0 →
    willTake a b 1 rest = true → ∀ u, u ≠ t → ¬ s.Heads b a u

/-- Who heads from a lock holds it. -/
theorem exists_succ_of_willTake {held want : L} {n : Nat}
    {code : List (LockOp L)} (h : willTake held want n code = true) :
    ∃ m, n = m + 1 := by
  cases n with
  | zero =>
      unfold willTake at h
      cases h
  | succ m => exact ⟨m, rfl⟩

/-- A step of another thread changes nothing for a thread that heads
somewhere. -/
theorem heads_other {s s' : Sched T L} {t u : T} {a b : L}
    (h : s.step t = some s') (hu : u ≠ t) :
    s'.Heads a b u ↔ s.Heads a b u := by
  obtain ⟨hcode, hdepth⟩ := step_other h hu
  unfold Heads
  rw [hcode, hdepth]

/-- A thread heads from `a` to `b` after its own step only if it did
before, or if it has just taken `a`. -/
theorem heads_back {s s' : Sched T L} {t : T} {a b : L} (hab : a ≠ b)
    (h : s.step t = some s') (hh : s'.Heads a b t) :
    s.Heads a b t ∨ ∃ rest, s.code t = .lock a :: rest ∧ s.depth t a = 0
      ∧ willTake a b 1 rest = true := by
  unfold Heads at hh ⊢
  rcases step_cons h with ⟨l, rest, hc⟩ | ⟨l, rest, hc⟩
  · obtain ⟨hcode, hd, -, hm⟩ := step_lock h hc
    rw [hcode, Function.update_self] at hh
    rw [hc]
    by_cases ha : a = l
    · rw [ha, hd] at hh
      cases hn : s.depth t a with
      | zero =>
          rw [ha] at hn
          rw [hn] at hh
          exact Or.inr ⟨rest, by rw [ha], rfl, by rw [ha]; exact hh⟩
      | succ n =>
          refine Or.inl ?_
          rw [ha] at hn hab ⊢
          rw [hn] at hh
          unfold willTake
          rw [if_neg hab, if_pos rfl]
          exact hh
    · rw [hm t a ha] at hh
      refine Or.inl ?_
      obtain ⟨n, hn⟩ := exists_succ_of_willTake hh
      rw [hn] at hh ⊢
      unfold willTake
      split
      · rfl
      · rw [if_neg fun h => ha h.symm]
        exact hh
  · obtain ⟨hcode, hd, -, hm⟩ := step_unlock h hc
    rw [hcode, Function.update_self] at hh
    rw [hc]
    refine Or.inl ?_
    by_cases ha : a = l
    · rw [ha] at hh ⊢
      rw [← hd]
      unfold willTake
      rw [if_pos rfl]
      exact hh
    · rw [hm t a ha] at hh
      obtain ⟨n, hn⟩ := exists_succ_of_willTake hh
      rw [hn] at hh ⊢
      unfold willTake
      rw [if_neg fun h => ha h.symm]
      exact hh

/-- An orderly step makes no crossing. -/
theorem Crossed.back {s s' : Sched T L} {v t u : T} {a b : L} (hab : a ≠ b)
    (h : s.step v = some s') (hord : s.Orderly a b v)
    (hord' : s.Orderly b a v) (hc : s'.Crossed a b t u) :
    s.Crossed a b t u := by
  by_cases ht : t = v
  · have hu : u ≠ v := fun hu => hc.ne (ht.trans hu.symm)
    have hsecond := (heads_other h hu).mp hc.second
    rw [ht] at hc ⊢
    rcases heads_back hab h hc.first with hf | ⟨rest, hcode, hd, hw⟩
    · exact ⟨hu.symm, hf, hsecond⟩
    · exact absurd hsecond (hord rest hcode hd hw u hu)
  · have hfirst := (heads_other h ht).mp hc.first
    by_cases hu : u = v
    · rw [hu] at hc ⊢
      rcases heads_back hab.symm h hc.second with hs | ⟨rest, hcode, hd, hw⟩
      · exact ⟨hc.ne, hfirst, hs⟩
      · exact absurd hfirst (hord' rest hcode hd hw t ht)
    · exact ⟨hc.ne, hfirst, (heads_other h hu).mp hc.second⟩

/-- A thread that heads from `a` to `b` does so until it takes `b`. -/
theorem heads_step {s s' : Sched T L} {t : T} {a b : L}
    (h : s.step t = some s') (hh : s.Heads a b t) :
    s'.Heads a b t ∨ ∃ rest, s.code t = .lock b :: rest := by
  unfold Heads at hh ⊢
  obtain ⟨n, hn⟩ := exists_succ_of_willTake hh
  rw [hn] at hh
  cases hc : s.code t with
  | nil =>
      rw [hc] at hh
      cases hh
  | cons e rest =>
      rw [hc] at hh
      unfold willTake at hh
      cases e with
      | lock l =>
          obtain ⟨hcode, hd, -, hm⟩ := step_lock h hc
          rw [hcode, Function.update_self]
          simp only [] at hh
          split at hh
          case isTrue hl => exact Or.inr ⟨rest, by rw [hl]⟩
          case isFalse =>
            refine Or.inl ?_
            split at hh
            case isTrue hl =>
              rw [← hl, hd, hl, hn]
              exact hh
            case isFalse hl =>
              rw [hm t a fun h => hl h.symm, hn]
              exact hh
      | unlock l =>
          obtain ⟨hcode, hd, -, hm⟩ := step_unlock h hc
          rw [hcode, Function.update_self]
          simp only [] at hh
          refine Or.inl ?_
          split at hh
          case isTrue hl =>
            rw [hl] at hd
            rw [hn] at hd
            rw [Nat.succ.inj hd]
            exact hh
          case isFalse hl =>
            rw [hm t a fun h => hl h.symm, hn]
            exact hh

theorem depth_pos_of_heads {s : Sched T L} {t : T} {a b : L}
    (h : s.Heads a b t) : s.depth t a ≠ 0 := by
  obtain ⟨n, hn⟩ := exists_succ_of_willTake h
  rw [hn]
  exact Nat.succ_ne_zero n

/-- Crossed threads stay crossed, whoever steps. -/
theorem Crossed.step {s s' : Sched T L} {v t u : T} {a b : L}
    (h : s.step v = some s') (hc : s.Crossed a b t u) :
    s'.Crossed a b t u := by
  have hself : ∀ {a b : L} {t u : T}, t ≠ u → s.step t = some s' →
      s.Heads a b t → s.Heads b a u → s'.Heads a b t := by
    intro a b t u htu h ht hu
    rcases heads_step h ht with hh | ⟨rest, hcode⟩
    · exact hh
    · obtain ⟨-, -, hfree, -⟩ := step_lock h hcode
      exact absurd (hfree u htu.symm).1 (depth_pos_of_heads hu)
  refine ⟨hc.ne, ?_, ?_⟩
  · by_cases ht : t = v
    · rw [ht] at hc ⊢
      exact hself hc.ne h hc.first hc.second
    · exact (heads_other h ht).mpr hc.first
  · by_cases hu : u = v
    · rw [hu] at hc ⊢
      exact hself hc.ne.symm h hc.second hc.first
    · exact (heads_other h hu).mpr hc.second

/-- One step, of a thread that satisfies `P`. -/
def Moves (P : Sched T L → T → Prop) (s s' : Sched T L) : Prop :=
  ∃ t, P s t ∧ s.step t = some s'

/-- Runs of orderly steps from a state in which no mutex is held make no
crossing. -/
theorem not_crossed_of_moves {P : Sched T L → T → Prop} {a b : L}
    (hab : a ≠ b)
    (hP : ∀ s t, P s t → s.Orderly a b t ∧ s.Orderly b a t)
    {s s' : Sched T L} (h0 : ∀ l, s.owner l = none)
    (h : Relation.ReflTransGen (Moves P) s s') (t u : T) :
    ¬ s'.Crossed a b t u := by
  induction h with
  | refl =>
      intro hc
      refine depth_pos_of_heads hc.first ?_
      unfold depth
      rw [h0 a]
      rfl
  | tail _ hmove ih =>
      obtain ⟨v, hp, hstep⟩ := hmove
      obtain ⟨hord, hord'⟩ := hP _ v hp
      exact fun hc => ih (hc.back hab hstep hord hord')

/-- Once crossed, crossed for the rest of the run. -/
theorem Crossed.moves {P : Sched T L → T → Prop} {a b : L}
    {s s' : Sched T L} {t u : T} (hc : s.Crossed a b t u)
    (h : Relation.ReflTransGen (Moves P) s s') : s'.Crossed a b t u := by
  induction h with
  | refl => exact hc
  | tail _ hmove ih =>
      obtain ⟨v, -, hstep⟩ := hmove
      exact ih.step hstep

/-- A step that is not orderly makes a crossing. -/
theorem crossed_of_not_orderly {s s' : Sched T L} {v : T} {a b : L}
    (h : s.step v = some s') (hord : ¬ s.Orderly a b v) :
    ∃ u, s'.Crossed a b v u := by
  unfold Orderly at hord
  simp only [not_forall, Classical.not_not] at hord
  obtain ⟨rest, hcode, hd, hw, u, hu, hh⟩ := hord
  obtain ⟨hc, hd', -, -⟩ := step_lock h hcode
  refine ⟨u, hu.symm, ?_, (heads_other h hu).mpr hh⟩
  unfold Heads
  rw [hc, Function.update_self, hd', hd]
  exact hw

end Sched

end PmmpThread.Pthread
