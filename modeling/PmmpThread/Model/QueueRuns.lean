/-
Whole runs of a linked queue of src/queue.c: every function that adds
items to it or takes them out, in any order.

# One queue among others

An item that is pushed may come from another queue, or may have been in
this one before, and still has the links it had there. What happens to
items outside the queue in the meantime is `elsewhere`: anything, as long
as the items of the queue stay as they are.

# The sequence

`QueueOp.sequence` is what an operation does to the sequence of items. The
code has no such sequence; it is what the links are compared with.
-/
import PmmpThread.Model.Worker

namespace PmmpThread.Model

open Zend Dlist

namespace Queue

/-- `pmmpthread_queue_unshift`. -/
def unshift (h : Items) (q : Dlist) (a : Nat) : Option (Items × Dlist) :=
  match q.head with
  | none =>
      (setPrevAndNext h a none none).map fun h =>
        (h, ⟨some a, some a, q.size⟩)
  | some b =>
      (assign h b fun n => { n with prev := some a }).bind fun h =>
        (setPrevAndNext h a none (some b)).map fun h =>
          (h, ⟨some a, q.tail, q.size⟩)

/-- `pmmpthread_queue_unshift_new`. -/
def unshiftNew (A : Allocator) (h : Items) (q : Dlist) (v : Task) :
    Option (Items × Dlist) :=
  unshift (h.place (h.next A) ⟨v, none, none⟩) q (h.next A)

/-- `pmmpthread_queue_pop`. -/
def pop (h : Items) (q : Dlist) (free : Bool) :
    Option (Option Task × Items × Dlist) :=
  remove h q q.tail free

/-- What `pmmpthread_queue_remove` returns when it leaves `q`. -/
def returned (item : Option Nat) (q : Dlist) : Int :=
  match item with
  | none => 0
  | some _ => q.size

end Queue

/-- A queue and the heap of all items. -/
structure QueueState where
  items : Items
  queue : Dlist

/-- A call of a function of the queue. -/
inductive QueueOp where
  | push (item : Nat)
  | pushNew (value : Task)
  | unshift (item : Nat)
  | unshiftNew (value : Task)
  | shift (free : Bool)
  | pop (free : Bool)
  | remove (item : Nat) (free : Bool)
  | elsewhere (items : Items)

namespace QueueOp

def isUnshift : QueueOp → Bool
  | unshift _ => true
  | unshiftNew _ => true
  | _ => false

/-- The result, where the function has one, and what is there after. -/
def apply (A : Allocator) (s : QueueState) :
    QueueOp → Option (Option Int × QueueState)
  | push a => (Queue.push s.items s.queue a).map fun r => (none, ⟨r.1, r.2⟩)
  | pushNew v =>
      (Queue.pushNew A s.items s.queue v).map fun r => (none, ⟨r.1, r.2⟩)
  | unshift a =>
      (Queue.unshift s.items s.queue a).map fun r => (none, ⟨r.1, r.2⟩)
  | unshiftNew v =>
      (Queue.unshiftNew A s.items s.queue v).map fun r => (none, ⟨r.1, r.2⟩)
  | shift free =>
      (Queue.shift s.items s.queue free).map fun r =>
        (some (Queue.returned s.queue.head r.2.2), ⟨r.2.1, r.2.2⟩)
  | pop free =>
      (Queue.pop s.items s.queue free).map fun r =>
        (some (Queue.returned s.queue.tail r.2.2), ⟨r.2.1, r.2.2⟩)
  | remove a free =>
      (Queue.remove s.items s.queue (some a) free).map fun r =>
        (some (Queue.returned (some a) r.2.2), ⟨r.2.1, r.2.2⟩)
  | elsewhere items => some (none, ⟨items, s.queue⟩)

/-- What a caller has to see to: an item is not in the queue twice, and
what is removed is in it. -/
def Legal (h : Items) (l : List (Nat × Task)) : QueueOp → Prop
  | push a => a ∉ addrs l ∧ (h.get a).isSome = true
  | unshift a => a ∉ addrs l ∧ (h.get a).isSome = true
  | remove a _ => a ∈ addrs l
  | elsewhere items => ∀ a ∈ addrs l, items.get a = h.get a
  | _ => True

/-- An item with its value. -/
def item (h : Items) (a : Nat) : List (Nat × Task) :=
  ((h.get a).map fun n => (a, n.value)).toList

/-- The sequence after an operation. -/
def sequence (A : Allocator) (h : Items) (l : List (Nat × Task)) :
    QueueOp → List (Nat × Task)
  | push a => l ++ item h a
  | pushNew v => l ++ [(h.next A, v)]
  | unshift a => item h a ++ l
  | unshiftNew v => (h.next A, v) :: l
  | shift _ => l.tail
  | pop _ => l.dropLast
  | remove a _ => l.filter fun e => e.1 != a
  | elsewhere _ => l

end QueueOp

/-- After the operations on a zeroed queue: the state, the sequence and
what the last one returned. -/
inductive QueueRun (A : Allocator) : List QueueOp → QueueState →
    List (Nat × Task) → Option Int → Prop
  | zeroed (h : Items) : QueueRun A [] ⟨h, Dlist.empty⟩ [] none
  | step {ops : List QueueOp} {s s' : QueueState} {l : List (Nat × Task)}
      {r r' : Option Int} {op : QueueOp} (hr : QueueRun A ops s l r)
      (hl : op.Legal s.items l) (hs : op.apply A s = some (r', s')) :
      QueueRun A (ops ++ [op]) s' (op.sequence A s.items l) r'

-- ====================================================== the invariant

/-- Following `link` visits the items of `l` in order and then ends. -/
def Visits (link : Node Task → Option Nat) (h : Items) :
    Option Nat → List (Nat × Task) → Prop
  | none, [] => True
  | some a, e :: l => a = e.1
      ∧ ∃ n, h.get a = some n ∧ n.value = e.2 ∧ Visits link h (link n) l
  | _, _ => False

/-- The links and the ends of a queue. -/
structure RightLinks (s : QueueState) (l : List (Nat × Task)) : Prop where
  forward : Visits Node.next s.items s.queue.head l
  backward : Visits Node.prev s.items s.queue.tail l.reverse
  head : s.queue.head = (addrs l).head?
  tail : s.queue.tail = (addrs l).getLast?
  head_null : s.queue.head = none ↔ l = []
  tail_null : s.queue.tail = none ↔ l = []

/-- The queue is the sequence, its size and what was returned are the
number of items, and every operation goes through. -/
structure Represents (A : Allocator) (s : QueueState)
    (l : List (Nat × Task)) (r : Option Int) : Prop where
  links : RightLinks s l
  size : s.queue.size = l.length
  returned : ∀ n, r = some n → n = l.length
  goesOn : ∀ op : QueueOp, op.Legal s.items l → (op.apply A s).isSome = true

end PmmpThread.Model
