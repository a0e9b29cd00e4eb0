/-
The deadline of a timed wait: what the `timespec` of
`pmmpthread_monitor_wait` says.

# Two parts with a carry

Seconds and microseconds are added one by one and the microseconds carry
into the seconds. With truncating division this is exact whatever the
signs (`carry_exact`), so the deadline always denotes the right point of
time (`deadline_exact`). The remainder takes the sign of the sum it is a
remainder of; where a negative timeout takes more microseconds than the
clock shows, it is negative and nothing borrows from the seconds
(`micros_nonneg_iff`).
-/
import PmmpThread.Model.Conditions
import Mathlib.Tactic.Ring

namespace PmmpThread.Model

-- ======================================================= truncation

/-- The remainder, for a positive divisor: less than it in size, with the
sign of the dividend. -/
theorem tmod_bounds (t : Int) {b : Int} (hb : 0 < b) :
    (0 < t → 0 ≤ t.tmod b) ∧ (t ≤ 0 → t.tmod b ≤ 0)
      ∧ -b < t.tmod b ∧ t.tmod b < b := by
  refine ⟨fun ht => ?_, fun ht => ?_, ?_, ?_⟩
  · apply Int.tmod_nonneg
    omega
  · have h := Int.tmod_nonneg b (Int.neg_nonneg.mpr ht)
    rw [Int.neg_tmod] at h
    omega
  · apply Int.lt_tmod_of_pos
    exact hb
  · apply Int.tmod_lt_of_pos
    exact hb

/-- The carry loses nothing. -/
theorem carry_exact (b s u t : Int) :
    (s + t.tdiv b + (u + t.tmod b).tdiv b) * b + (u + t.tmod b).tmod b
      = s * b + u + t := by
  have ht := Int.tdiv_mul_add_tmod t b
  have hu := Int.tdiv_mul_add_tmod (u + t.tmod b) b
  calc (s + t.tdiv b + (u + t.tmod b).tdiv b) * b + (u + t.tmod b).tmod b
      = s * b + t.tdiv b * b
        + ((u + t.tmod b).tdiv b * b + (u + t.tmod b).tmod b) := by ring
    _ = s * b + u + (t.tdiv b * b + t.tmod b) := by
        rw [hu]
        ring
    _ = s * b + u + t := by rw [ht]

/-- A sum of two parts has a remainder that is not negative unless the
second one is the larger and negative. -/
theorem micros_nonneg_iff {b u t : Int} (hu : 0 ≤ u) (hub : u < b) :
    0 ≤ (u + t.tmod b).tmod b ↔ 0 < t ∨ (-t) % b ≤ u := by
  have hb : 0 < b := by omega
  obtain ⟨hpos, hneg, hlo, hhi⟩ := tmod_bounds t hb
  by_cases ht : 0 < t
  · have hle : 0 ≤ u + t.tmod b := by
      have hm := hpos ht
      omega
    simp [ht, Int.tmod_nonneg b hle]
  · have hrem : t.tmod b = -((-t) % b) := by
      have h := Int.neg_tmod t b
      rw [Int.tmod_eq_emod_of_nonneg (by omega)] at h
      omega
    by_cases hle : (-t) % b ≤ u
    · have hsum : 0 ≤ u + t.tmod b := by omega
      simp [hle, Int.tmod_nonneg b hsum]
    · -- the sum is between `-b` and zero, and is its own remainder
      have hm := hneg (by omega)
      have hself : (u + t.tmod b).tmod b = u + t.tmod b := by
        have h := Int.neg_tmod (u + t.tmod b) b
        rw [Int.tmod_eq_of_lt (by omega) (by omega)] at h
        omega
      simp only [hself, ht, hle, false_or, iff_false]
      omega

-- ======================================================== the deadline

theorem long_eq {x : Int} (hl : IsLong x) : long x = some x := if_pos hl

variable {now : Timeval} {timeout : Int}

/-- No operation overflows. -/
theorem deadline_eq (now : Timeval) (hl : IsLong timeout) :
    deadline now timeout
      = some ⟨now.tvSec + timeout.tdiv 1000000
          + (now.tvUsec + timeout.tmod 1000000).tdiv 1000000,
        (now.tvUsec + timeout.tmod 1000000).tmod 1000000 * 1000⟩ := by
  obtain ⟨hs, hs'⟩ := now.sec_range
  obtain ⟨hu, hu'⟩ := now.usec_range
  obtain ⟨ht, ht'⟩ := hl
  obtain ⟨-, -, hlo, hhi⟩ := tmod_bounds timeout (b := 1000000) (by omega)
  obtain ⟨-, -, hlo', hhi'⟩ :=
    tmod_bounds (now.tvUsec + timeout.tmod 1000000) (b := 1000000) (by omega)
  have hq := Int.tdiv_mul_add_tmod timeout 1000000
  have hq' := Int.tdiv_mul_add_tmod (now.tvUsec + timeout.tmod 1000000)
    1000000
  unfold deadline
  rw [long_eq (x := now.tvSec + _) (by unfold IsLong; omega)]
  simp only [Option.bind_eq_bind, Option.bind_some]
  rw [long_eq (x := now.tvUsec + _) (by unfold IsLong; omega)]
  simp only [Option.bind_some]
  rw [long_eq (by unfold IsLong; omega), Option.bind_some,
    long_eq (by unfold IsLong; omega), Option.bind_some]

/-- The point of time of a wait. -/
structure Denotes (spec : Timespec) (now : Timeval) (timeout : Int) :
    Prop where
  exact : spec.tvSec * 1000000000 + spec.tvNsec
    = (now.tvSec * 1000000 + now.tvUsec + timeout) * 1000

/-- Whatever the timeout, the deadline is the right point of time. -/
theorem deadline_exact (now : Timeval) (hl : IsLong timeout) :
    ∃ spec, deadline now timeout = some spec
      ∧ Denotes spec now timeout := by
  refine ⟨_, deadline_eq now hl, ⟨?_⟩⟩
  rw [← carry_exact 1000000 now.tvSec now.tvUsec timeout]
  ring

/-- The wait has a deadline that `pthread_cond_timedwait` takes, and it is
the right one. -/
def WaitsUntil (now : Timeval) (timeout : Int) : Prop :=
  ∃ spec, threadSafeWait (some now) (some timeout)
      = some (.condTimedwait spec)
    ∧ (0 ≤ spec.tvNsec ∧ spec.tvNsec < 1000000000)
    ∧ Denotes spec now timeout

theorem threadSafeWait_eq {spec : Timespec} (h0 : timeout ≠ 0)
    (hd : deadline now timeout = some spec) :
    threadSafeWait (some now) (some timeout)
      = some (.condTimedwait spec) := by
  unfold threadSafeWait monitorWait
  simp [h0, hd]

/-- The deadline of a wait is in order exactly when the timeout does not
take microseconds that the clock does not show. -/
theorem wait_deadline_iff (now : Timeval) (hl : IsLong timeout)
    (h0 : timeout ≠ 0) :
    WaitsUntil now timeout
      ↔ 0 < timeout ∨ (-timeout) % 1000000 ≤ now.tvUsec := by
  obtain ⟨hu, hu'⟩ := now.usec_range
  rw [← micros_nonneg_iff hu hu']
  have hd := deadline_eq now hl
  obtain ⟨spec, hs, hexact⟩ := deadline_exact now hl
  have hspec := hd.symm.trans hs
  obtain ⟨-, -, -, hhi⟩ :=
    tmod_bounds (now.tvUsec + timeout.tmod 1000000) (b := 1000000) (by omega)
  have hnsec : spec.tvNsec
      = (now.tvUsec + timeout.tmod 1000000).tmod 1000000 * 1000 := by
    rw [← Option.some.inj hspec]
  constructor
  · rintro ⟨spec', hw, ⟨hlo, -⟩, -⟩
    rw [threadSafeWait_eq h0 hs] at hw
    cases hw
    omega
  · intro hlo
    refine ⟨spec, threadSafeWait_eq h0 hs, ⟨?_, ?_⟩, hexact⟩
    · omega
    · omega

/-- The clock at a full second. -/
def fullSecond : Timeval := ⟨1700000000, 0, by decide, by decide⟩

/-- A hundred milliseconds from a full second. -/
theorem wait_deadline_iff_forward :
    WaitsUntil fullSecond 100000
      ↔ 0 < (100000 : Int) ∨ (-100000) % 1000000 ≤ fullSecond.tvUsec :=
  wait_deadline_iff fullSecond (by decide) (by decide)

/-- A microsecond before a full second: the nanoseconds are negative. -/
theorem wait_deadline_negative : ¬ WaitsUntil fullSecond (-1) := by
  rintro ⟨spec, hw, ⟨hlo, -⟩, -⟩
  have hspec : threadSafeWait (some fullSecond) (some (-1))
      = some (.condTimedwait ⟨1700000000, -1000⟩) := by decide
  rw [hspec] at hw
  cases hw
  exact absurd hlo (by decide)

end PmmpThread.Model
