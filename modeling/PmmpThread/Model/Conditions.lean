/-
One monitor, its mutex, condition variable and state word, and threads that
call the functions of src/monitor.c on it in any order: the protocols of
start, join and the worker loop, `ThreadSafe::wait`, `notify` and
`notifyOne`, and the bodies of `ThreadSafe::synchronized`.

# Code

A thread is the calls it makes; what it does at other monitors and between
the calls does not matter to this one. The result of a check decides which
calls come next, and every list of calls is there.

# What is left out

A timeout, which returns as a wake-up without a reason does. Its deadline,
the call that `pmmpthread_monitor_wait` makes for a timeout in
microseconds, is at the end.

# Arithmetic

`long`, `time_t` and `zend_long` are the 64-bit integers of an LP64
system. Signed overflow has no meaning in C: an operation whose result
does not fit is a fault, and the function then answers `none`. Division
and remainder truncate toward zero (`Int.tdiv`, `Int.tmod`); by a million
they never overflow.
-/
import Mathlib.Tactic.Ring
import PmmpThread.Pthread.Cond
import PmmpThread.Model.Worker

namespace PmmpThread.Model

open Pthread

/-- A call on the monitor. `locked` is anything done between
`pmmpthread_monitor_lock` and `pmmpthread_monitor_unlock`, such as the body
of `ThreadSafe::synchronized`. -/
inductive ConditionCall where
  | add (f : Flag)
  | remove (f : Flag)
  | check (mask : List Flag)
  | waitUntil (mask : List Flag)
  | wait
  | notify
  | notifyOne
  | locked (body : List ConditionCall)

namespace ConditionCall

/-- The loop of `pmmpthread_monitor_wait_until` goes on. -/
def lacks (mask : List Flag) (m : MonitorState) : Bool := !m.check mask

mutual

def code : ConditionCall → List (CondOp MonitorState)
  | .add f => [.lock, .set fun m => m.add f, .broadcast, .unlock]
  | .remove f => [.lock, .set fun m => m.remove f, .broadcast, .unlock]
  | .check _ => [.lock, .unlock]
  | .waitUntil mask => [.lock, .waitWhile (lacks mask), .unlock]
  | .wait => [.wait]
  | .notify => [.broadcast]
  | .notifyOne => [.signal]
  | .locked body => .lock :: (codes body ++ [.unlock])

def codes : List ConditionCall → List (CondOp MonitorState)
  | [] => []
  | c :: cs => c.code ++ codes cs

end

end ConditionCall

/-- All threads before the first of their calls. -/
def startConditions {T : Type} (calls : T → List ConditionCall)
    (m : MonitorState) : Cond T MonitorState where
  code t := ConditionCall.codes (calls t)
  phase _ := .running
  owner := none
  value := m

/-- Who knows the monitor of a `pmmpthread_routine_arg_t`. -/
inductive StartThread where
  | creator
  | child
  deriving DecidableEq

/-- What is done to it: `pmmpthread_routine_wait` destroys it when the wait
has returned, and `pmmpthread_prepared_startup` adds `READY`. -/
def startCalls : StartThread → List ConditionCall
  | .creator => [.waitUntil [.ready]]
  | .child => [.add .ready]

-- ======================================================== the timed wait

/-- A value of `long`. -/
def IsLong (x : Int) : Prop := -2 ^ 63 ≤ x ∧ x < 2 ^ 63

instance (x : Int) : Decidable (IsLong x) :=
  inferInstanceAs (Decidable (_ ∧ _))

/-- The result of an operation on `long`s. -/
def long (x : Int) : Option Int := if IsLong x then some x else none

/-- A `struct timeval` from `gettimeofday`. -/
structure Timeval where
  tvSec : Int
  tvUsec : Int
  sec_range : 0 ≤ tvSec ∧ tvSec < 2 ^ 62
  usec_range : 0 ≤ tvUsec ∧ tvUsec < 1000000

/-- `struct timespec`. -/
structure Timespec where
  tvSec : Int
  tvNsec : Int
  deriving DecidableEq, Repr

/-- What a wait comes to: the call it makes, or a return of `-1`. -/
inductive WaitCall where
  | condWait
  | condTimedwait (spec : Timespec)
  | failed
  deriving DecidableEq, Repr

/-- The deadline of `pmmpthread_monitor_wait`. -/
def deadline (time : Timeval) (timeout : Int) : Option Timespec := do
  let sec ← long (time.tvSec + timeout.tdiv 1000000)
  let part ← long (time.tvUsec + timeout.tmod 1000000)
  let sec ← long (sec + part.tdiv 1000000)
  let nsec ← long (part.tmod 1000000 * 1000)
  some ⟨sec, nsec⟩

/-- `pmmpthread_monitor_wait`. -/
def monitorWait (gettimeofday : Option Timeval) (timeout : Int) :
    Option WaitCall :=
  if timeout = 0 then some .condWait
  else match gettimeofday with
    | none => some .failed
    | some time => (deadline time timeout).map .condTimedwait

/-- `ThreadSafe::wait`; the timeout is optional. -/
def threadSafeWait (gettimeofday : Option Timeval) (timeout : Option Int) :
    Option WaitCall :=
  monitorWait gettimeofday (timeout.getD 0)

end PmmpThread.Model
