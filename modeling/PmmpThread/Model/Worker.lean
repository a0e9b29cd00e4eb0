/-
The task queues of a Worker: the linked queues of src/queue.c and what
the functions of src/worker.c do with them while they hold the monitor.

# Memory

The items of all queues live in one heap. An item that is dereferenced
and is not there is a fault; the functions then answer `none`. What
`emalloc` leaves in the links of a new item is not read before it is
linked, so it starts with empty links.

# Ghost data

A task carries the number of its insertion. The code does not have it;
it tells two insertions of one object apart.
-/
import Mathlib.Data.Finset.Insert
import Mathlib.Data.Finset.Erase
import PmmpThread.Zend.Dlist
import PmmpThread.Model.Value

namespace PmmpThread.Model

open Zend

-- ============================================================ monitor

/-- `PMMPTHREAD_MONITOR_*`. -/
inductive Flag where
  | started
  | running
  | joined
  | error
  | ready
  | collectGarbage
  | exit
  | awaitJoin
  deriving DecidableEq, Repr

/-- The state word of a monitor. -/
abbrev MonitorState := Finset Flag

namespace MonitorState

/-- `pmmpthread_monitor_check` for one flag of a mask or more. -/
def check (m : MonitorState) (mask : List Flag) : Bool := mask.any (· ∈ m)

/-- What `pmmpthread_monitor_add` does to the state word. -/
def add (m : MonitorState) (f : Flag) : MonitorState := insert f m

/-- What `pmmpthread_monitor_remove` does to it. -/
def remove (m : MonitorState) (f : Flag) : MonitorState := m.erase f

end MonitorState

-- ============================================================== queue

/-- A task of a worker: the object, and the number of its insertion. -/
structure Task where
  object : Addr
  serial : Nat
  deriving DecidableEq, Repr

/-- The `pmmpthread_queue_item_t`s of a worker and of its thread. -/
abbrev Items := Heap (Node Task)

namespace Queue

/-- An assignment to an item, which has to be there. -/
def assign (h : Items) (a : Nat) (f : Node Task → Node Task) :
    Option Items :=
  (h.get a).map fun _ => h.modify a f

/-- `set_prev_and_next`. -/
def setPrevAndNext (h : Items) (a : Nat) (prev next : Option Nat) :
    Option Items :=
  assign h a fun n => { n with prev, next }

/-- `pmmpthread_queue_push`. -/
def push (h : Items) (q : Dlist) (a : Nat) : Option (Items × Dlist) :=
  match q.tail with
  | none =>
      (setPrevAndNext h a none none).map fun h =>
        (h, ⟨some a, some a, q.size + 1⟩)
  | some b =>
      (assign h b fun n => { n with next := some a }).bind fun h =>
        (setPrevAndNext h a (some b) none).map fun h =>
          (h, ⟨q.head, some a, q.size + 1⟩)

/-- `pmmpthread_queue_push_new`; the item is at the address the
allocator picks. -/
def pushNew (A : Allocator) (h : Items) (q : Dlist) (v : Task) :
    Option (Items × Dlist) :=
  push (h.place (h.next A) ⟨v, none, none⟩) q (h.next A)

/-- The links of `pmmpthread_queue_remove` around the item `a`, which is
`n`. -/
def unlink (h : Items) (q : Dlist) (a : Nat) (n : Node Task) :
    Option (Items × Dlist) :=
  if q.head = some a ∧ q.tail = some a then
    some (h, ⟨none, none, q.size - 1⟩)
  else if q.head = some a then
    n.next.bind fun b => (assign h b fun m => { m with prev := none }).map
      fun h => (h, ⟨some b, q.tail, q.size - 1⟩)
  else if q.tail = some a then
    n.prev.bind fun b => (assign h b fun m => { m with next := none }).map
      fun h => (h, ⟨q.head, some b, q.size - 1⟩)
  else
    n.next.bind fun b => n.prev.bind fun c =>
      (assign h b fun m => { m with prev := some c }).bind fun h =>
        (assign h c fun m => { m with next := some b }).map fun h =>
          (h, ⟨q.head, q.tail, q.size - 1⟩)

/-- `pmmpthread_queue_remove`: the value of the item, if there is one;
`free` is `PMMPTHREAD_STACK_FREE`. -/
def remove (h : Items) (q : Dlist) (item : Option Nat) (free : Bool) :
    Option (Option Task × Items × Dlist) :=
  match item with
  | none => some (none, h, q)
  | some a =>
      (h.get a).bind fun n => (unlink h q a n).map fun r =>
        (some n.value, if free then r.1.free a else r.1, r.2)

/-- `pmmpthread_queue_shift`. -/
def shift (h : Items) (q : Dlist) (free : Bool) :
    Option (Option Task × Items × Dlist) :=
  remove h q q.head free

end Queue

-- ======================================================== worker data

/-- `pmmpthread_worker_data_t`, with the items of its queues and of the
thread's `done_tasks_cache`. An item of the cache holds the connection
of a task; the task is all that is said about it. -/
structure WorkerData where
  items : Items
  queue : Dlist
  gc : Dlist
  running : Option Nat
  tasksCollected : Nat
  doneTasksCache : Dlist

namespace WorkerData

/-- `pmmpthread_worker_data_alloc`, and the empty cache of
`pmmpthread_routine`. -/
def alloc : WorkerData where
  items := .empty
  queue := .empty
  gc := .empty
  running := none
  tasksCollected := 0
  doneTasksCache := .empty

/-- `pmmpthread_worker_add_task`: whether it notifies, and the data. -/
def addTask (A : Allocator) (d : WorkerData) (v : Task) :
    Option (Bool × WorkerData) :=
  (Queue.pushNew A d.items d.queue v).map fun r =>
    (d.queue.size == 0, { d with items := r.1, queue := r.2 })

/-- `pmmpthread_worker_dequeue_task`. -/
def dequeueTask (d : WorkerData) : Option (Option Task × WorkerData) :=
  (Queue.shift d.items d.queue true).map fun r =>
    (r.1, { d with items := r.2.1, queue := r.2.2 })

/-- The loop of `pmmpthread_worker_collect_tasks` at the item `item`.
`collect` are the answers of the collector, one for each call; a
collector that is asked once more says no. -/
def collectLoop (d : WorkerData) :
    List Bool → Option Nat → Option (List Task × WorkerData)
  | _, none => some ([], d)
  | [], some _ => some ([], d)
  | false :: _, some _ => some ([], d)
  | true :: collect, some a =>
      (d.items.get a).bind fun n =>
        (Queue.shift d.items d.gc true).bind fun r =>
          (collectLoop { d with items := r.2.1, gc := r.2.2 } collect
            n.next).map fun c => (r.1.toList ++ c.1, c.2)

/-- `pmmpthread_worker_collect_tasks`: the size it returns, the tasks
collected and the data. -/
def collectTasks (d : WorkerData) (collect : List Bool) :
    Option (Int × List Task × WorkerData) :=
  (d.collectLoop collect d.gc.head).map fun r =>
    let d := { r.2 with tasksCollected := r.2.tasksCollected + r.1.length }
    (d.queue.size + d.gc.size + (if d.running.isSome then 1 else 0),
      r.1, d)

/-- The loop of `pmmpthread_worker_next_task` that drops `count`
connections from the cache. -/
def dropCached (d : WorkerData) : Nat → Option (List (Option Task) × WorkerData)
  | 0 => some ([], d)
  | count + 1 =>
      (Queue.shift d.items d.doneTasksCache true).bind fun r =>
        (dropCached { d with items := r.2.1, doneTasksCache := r.2.2 }
          count).map fun c => (r.1 :: c.1, c.2)

/-- Handling of `COLLECT_GARBAGE` in `pmmpthread_worker_next_task`. -/
def handleGarbage (d : WorkerData) :
    Option (List (Option Task) × WorkerData) :=
  (d.dropCached d.tasksCollected).map fun r =>
    (r.1, { r.2 with tasksCollected := 0 })

/-- `pmmpthread_worker_next_task` when there is a task: it becomes the
running one, its item is not freed. -/
def takeTask (d : WorkerData) : Option (Option Task × WorkerData) :=
  (Queue.shift d.items d.queue false).map fun r =>
    (r.1, { d with items := r.2.1, queue := r.2.2, running := d.queue.head })

/-- `pmmpthread_worker_add_garbage` up to the unlock. -/
def addGarbage (d : WorkerData) : Option WorkerData :=
  d.running.bind fun a => (Queue.push d.items d.gc a).map fun r =>
    { d with items := r.1, gc := r.2, running := none }

/-- The end of `pmmpthread_worker_add_garbage`. -/
def cacheDone (A : Allocator) (d : WorkerData) (v : Task) :
    Option WorkerData :=
  (Queue.pushNew A d.items d.doneTasksCache v).map fun r =>
    { d with items := r.1, doneTasksCache := r.2 }

end WorkerData

end PmmpThread.Model
