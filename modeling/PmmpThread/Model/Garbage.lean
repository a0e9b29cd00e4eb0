/-
The tasks of a Worker as the engine sees them: what the cycle collector is
shown (`pmmpthread_base_gc`, `pmmpthread_worker_get_gc_extra`), and what is
released when the object and the thread's cache go
(`pmmpthread_worker_data_free`, `pmmpthread_queue_clean`).

# Loops

Each of them follows `next` until there is no item. They run on a fuel
here, and answer `none` where it does not suffice or an item that is
dereferenced is not there.

# The monitor

Both functions of the worker's data take its monitor first. `getGcExtra`
and `WorkerData.dataFree` are what they do with it; the monitor that a
bailout has left locked is waited for for ever (`Life.dataFree`).

# What is left out

What a released value does in its destructor. The object can no longer be
reached when its data is freed, and the cache is only known to the thread
that cleans it.
-/
import PmmpThread.Model.Routine

namespace PmmpThread.Model

open Zend

namespace Queue

/-- The loops of `pmmpthread_worker_get_gc_extra`: the values of a queue
from `item` on. -/
def values (h : Items) : Nat → Option Nat → Option (List Task)
  | _, none => some []
  | 0, some _ => none
  | fuel + 1, some a => (h.get a).bind fun n =>
      (values h fuel n.next).map fun l => n.value :: l

/-- `pmmpthread_queue_clean` from `item` on: the values it releases, in
order. The next item is read before this one is freed. -/
def clean (h : Items) : Nat → Option Nat → Option (List Task × Items)
  | _, none => some ([], h)
  | 0, some _ => none
  | fuel + 1, some a => (h.get a).bind fun n =>
      (clean (h.free a) fuel n.next).map fun r => (n.value :: r.1, r.2)

end Queue

/-- How many items are allocated. -/
def itemCount (h : Items) : Nat := h.count fun _ => true

namespace WorkerData

/-- The running item in `pmmpthread_worker_get_gc_extra`. -/
def runningValue (d : WorkerData) : Option (List Task) :=
  match d.running with
  | none => some []
  | some a => (d.items.get a).map fun n => [n.value]

/-- `pmmpthread_worker_get_gc_extra`. -/
def getGcExtra (d : WorkerData) (fuel : Nat) : Option (List Task) :=
  (Queue.values d.items fuel d.queue.head).bind fun queue =>
    d.runningValue.bind fun running =>
      (Queue.values d.items fuel d.gc.head).map fun gc =>
        queue ++ (running ++ gc)

/-- `pmmpthread_worker_data_free` with the monitor: the values released,
whether its assertion that no task is running holds, and the items that
are left. A release build goes on where the assertion fails. -/
def dataFree (d : WorkerData) (fuel : Nat) :
    Option (List Task × Bool × Items) :=
  (Queue.clean d.items fuel d.queue.head).bind fun queue =>
    (Queue.clean queue.2 fuel d.gc.head).map fun gc =>
      (queue.1 ++ gc.1, d.running.isNone, gc.2)

/-- The end of `pmmpthread_routine` cleans `done_tasks_cache`. -/
def cleanCache (d : WorkerData) (h : Items) (fuel : Nat) :
    Option (List Task × Items) :=
  Queue.clean h fuel d.doneTasksCache.head

/-- How many items no queue has and no task is running from. -/
def lost (d : WorkerData) : Int :=
  itemCount d.items - (d.queue.size + d.gc.size + d.doneTasksCache.size
    + if d.running.isSome then 1 else 0)

end WorkerData

/-- `pmmpthread_worker_data_free`; `none` does not return, or is a
fault. -/
def Life.dataFree (s : Life) (fuel : Nat) :
    Option (List Task × Bool × Items) :=
  if s.held then none else s.data.dataFree fuel

end PmmpThread.Model
