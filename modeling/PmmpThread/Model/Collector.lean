/-
`pmmpthread_worker_collect_tasks` with a collector that calls back into
the worker.

The collector is user code. It runs while the loop holds the worker's
monitor, which is recursive, so it may stack and unstack tasks of the
worker and collect itself; the worker's thread has to wait. What the
collectors of one run do is a tree: for each call what it does to the
worker and what it answers, and under each nested collect the calls of its
collector. A collector that is called once more than the tree says
answers no.

The loop keeps a pointer to the item it asks about. It reads `item->next`
after the collector has returned, and shifts whatever is at the head of
the queue.
-/
import PmmpThread.Model.Worker

namespace PmmpThread.Model

open Zend

mutual
/-- What a collector does to the worker before it returns. -/
inductive Calls where
  | done
  | stack (v : Task) (rest : Calls)
  | unstack (rest : Calls)
  | collect (c : Collector) (rest : Calls)

/-- The calls of one collector, with what each does and answers. -/
inductive Collector where
  | done
  | ask (during : Calls) (answer : Bool) (rest : Collector)
end

/-- What there is to see of a run: a collector is called with a task, a
collector answers yes for the task it was called with, a task is removed
from the gc queue; a shift of an empty queue removes none. -/
inductive Event where
  | asked (t : Task)
  | accepted (t : Task)
  | removed (t : Option Task)
  deriving DecidableEq, Repr

/-- The end of `pmmpthread_worker_collect_tasks`, with the number of rounds
of the loop. -/
def counted (r : List Event × Nat × WorkerData) : List Event × WorkerData :=
  (r.1, { r.2.2 with tasksCollected := r.2.2.tasksCollected + r.2.1 })

mutual
/-- The calls of a collector; `none` is a fault. -/
def Calls.run (A : Allocator) :
    Calls → WorkerData → Option (List Event × WorkerData)
  | .done, d => some ([], d)
  | .stack v rest, d => (d.addTask A v).bind fun r => rest.run A r.2
  | .unstack rest, d => d.dequeueTask.bind fun r => rest.run A r.2
  | .collect c rest, d =>
      (c.loop A d.gc.head d).bind fun r =>
        (rest.run A (counted r).2).map fun s => (r.1 ++ s.1, s.2)

/-- The loop of `pmmpthread_worker_collect_tasks` at the item `item`: what
happened, `tasks_collected`, and the data. -/
def Collector.loop (A : Allocator) : Collector → Option Nat → WorkerData →
    Option (List Event × Nat × WorkerData)
  | .done, _, d => some ([], 0, d)
  | .ask _ _ _, none, d => some ([], 0, d)
  | .ask during answer rest, some a, d =>
      (d.items.get a).bind fun n =>
        (during.run A d).bind fun r =>
          if answer then
            (r.2.items.get a).bind fun m =>
              (Queue.shift r.2.items r.2.gc true).bind fun q =>
                (rest.loop A m.next
                  { r.2 with items := q.2.1, gc := q.2.2 }).map fun s =>
                    (.asked n.value :: r.1
                      ++ .accepted n.value :: .removed q.1 :: s.1,
                      s.2.1 + 1, s.2.2)
          else some (.asked n.value :: r.1, 0, r.2)
end

/-- `pmmpthread_worker_collect_tasks`. -/
def Collector.collect (A : Allocator) (c : Collector) (d : WorkerData) :
    Option (List Event × WorkerData) :=
  (c.loop A d.gc.head d).map counted

/-- The tasks removed, in order. -/
def removedTasks (log : List Event) : List Task :=
  log.filterMap fun e => match e with
    | .removed t => t
    | _ => none

/-- The rounds of all loops that removed something or meant to. -/
def rounds (log : List Event) : Nat :=
  (log.filter fun e => match e with
    | .removed _ => true
    | _ => false).length

-- ======================================================= what is left

mutual
/-- The length of a gc queue of length `n` after the calls. -/
def Calls.left : Calls → Nat → Nat
  | .done, n => n
  | .stack _ rest, n => rest.left n
  | .unstack rest, n => rest.left n
  | .collect c rest, n => rest.left (c.left n)

/-- The same after a collect. -/
def Collector.left : Collector → Nat → Nat
  | .done, n => n
  | .ask _ _ _, 0 => 0
  | .ask during answer rest, n + 1 =>
      if answer then rest.left n else during.left (n + 1)
end

mutual
/-- No collector that is called and answers yes has removed a task while
it ran. -/
def Calls.Calm : Calls → Nat → Prop
  | .done, _ => True
  | .stack _ rest, n => rest.Calm n
  | .unstack rest, n => rest.Calm n
  | .collect c rest, n => c.Calm n ∧ rest.Calm (c.left n)

def Collector.Calm : Collector → Nat → Prop
  | .done, _ => True
  | .ask _ _ _, 0 => True
  | .ask during answer rest, n + 1 =>
      during.Calm (n + 1)
        ∧ (answer = true → during.left (n + 1) = n + 1 ∧ rest.Calm n)
end

end PmmpThread.Model
