/-
What a queue is after any run of its operations: the links and the ends
always are those of the sequence of its items, and the size is short by
one for every item that was unshifted.

# Two parts

No operation looks at the size, so the links are a matter of their own:
each function does the same from any other size (`push_resize` and its
like), and `Chain` is kept from step to step (`apply_chain`). The size is
then counted against the sequence (`apply_counts`). `unshift` is the one
function that adds an item and does not count it.
-/
import PmmpThread.Model.QueueRuns
import PmmpThread.Proofs.Queue

namespace PmmpThread.Model

open Zend Dlist

variable {A : Allocator} {h h' : Items} {q q' : Dlist}
  {l l₁ l₂ : List (Nat × Task)}

namespace Queue

-- ===================================================== from any size

/-- No operation looks at the size. -/
theorem push_resize (h : Items) (q : Dlist) (a : Nat) (n : Int) :
    push h { q with size := n } a
      = (push h q a).map fun r => (r.1, { r.2 with size := n + 1 }) := by
  unfold push
  cases q.tail with
  | none => simp [Function.comp_def]
  | some b => simp [Option.map_bind, Function.comp_def]

theorem unshift_resize (h : Items) (q : Dlist) (a : Nat) (n : Int) :
    unshift h { q with size := n } a
      = (unshift h q a).map fun r => (r.1, { r.2 with size := n }) := by
  unfold unshift
  cases q.head with
  | none => simp [Function.comp_def]
  | some b => simp [Option.map_bind, Function.comp_def]

theorem unlink_resize (h : Items) (q : Dlist) (a : Nat) (m : Node Task)
    (n : Int) : unlink h { q with size := n } a m
      = (unlink h q a m).map fun r => (r.1, { r.2 with size := n - 1 }) := by
  unfold unlink
  split_ifs
  · rfl
  · simp [Option.map_bind, Function.comp_def]
  · simp [Option.map_bind, Function.comp_def]
  · simp [Option.map_bind, Function.comp_def]

theorem remove_resize (h : Items) (q : Dlist) (a : Nat) (free : Bool)
    (n : Int) : remove h { q with size := n } (some a) free
      = (remove h q (some a) free).map fun r =>
          (r.1, r.2.1, { r.2.2 with size := n - 1 }) := by
  unfold remove
  simp [unlink_resize, Option.map_bind, Function.comp_def]

-- ========================================================== the links

/-- `pmmpthread_queue_push`, whatever the size says. -/
theorem push_chain {a : Nat} {n : Node Task} (hl : Chain h q l)
    (hn : h.get a = some n) (ha : a ∉ addrs l) :
    ∃ h' q', push h q a = some (h', q')
      ∧ Chain h' q' (l ++ [(a, n.value)]) ∧ q'.size = q.size + 1 := by
  obtain ⟨h', q₁, hp, hl', -⟩ := push_spec hl hn ha
  rw [push_resize] at hp
  obtain ⟨⟨h₂, q'⟩, hq, heq⟩ := Option.map_eq_some_iff.mp hp
  obtain ⟨rfl, rfl⟩ := Prod.mk.inj heq
  refine ⟨h₂, q', hq, ?_, ?_⟩
  · unfold Chain
    rw [List.length_append]
    exact hl'
  · have hsize := push_resize h q a q.size
    rw [hq] at hsize
    exact congrArg (fun r => r.2.size) (Option.some.inj hsize)

/-- `pmmpthread_queue_unshift` of an item that is in no list. -/
theorem unshift_spec {a : Nat} {n : Node Task} (hl : Holds h q l)
    (hn : h.get a = some n) (ha : a ∉ addrs l) :
    ∃ h' q', unshift h q a = some (h', q')
      ∧ Holds h' { q' with size := q.size + 1 } ((a, n.value) :: l)
      ∧ q'.size = q.size := by
  unfold unshift
  cases hh : q.head with
  | none =>
      have hnil := hl.head_eq_none.mp hh
      have htail : q.tail = none := hl.tail_eq_none.mpr hnil
      unfold setPrevAndNext
      rw [assign_eq hn]
      refine ⟨_, _, rfl, hl.cons ha ?_ (fun b m hb => ?_) (fun c hc => ?_) ?_,
        rfl⟩
      · rw [Heap.get_modify_self, hn, hh]
        rfl
      · rw [hh] at hb
        cases hb
      · rw [hnil] at hc
        cases hc
      · rw [htail]
        rfl
  | some b =>
      have hbl : b ∈ addrs l := by
        rw [hl.head] at hh
        exact List.mem_of_head? hh
      obtain ⟨m, hm⟩ := hl.live hbl
      have hab : a ≠ b := by
        intro hab
        exact ha (hab ▸ hbl)
      have hn' : (h.modify b fun n => { n with prev := some a }).get a
          = some n := by
        rw [Heap.get_modify_ne _ _ hab]
        exact hn
      unfold setPrevAndNext
      simp only [assign_eq hm, Option.bind_some, assign_eq hn',
        Option.map_some]
      refine ⟨_, _, rfl, hl.cons ha ?_ (fun b' m' hb' hm' => ?_)
        (fun c hc hne => ?_) ?_, rfl⟩
      · rw [Heap.get_modify_self, hn', hh]
        rfl
      · rw [hh] at hb'
        rw [← Option.some.inj hb'] at hm' ⊢
        rw [Heap.get_modify_ne _ _ hab.symm, Heap.get_modify_self, hm']
        rfl
      · have hca : c ≠ a := fun hca => ha (hca ▸ hc)
        have hcb : c ≠ b := fun hcb => hne (by rw [hh, hcb])
        rw [Heap.get_modify_ne _ _ hca, Heap.get_modify_ne _ _ hcb]
      · cases ht : q.tail with
        | some c => rfl
        | none =>
            rw [hl.tail_eq_none.mp ht] at hbl
            cases hbl

/-- `pmmpthread_queue_unshift`, whatever the size says. It stays. -/
theorem unshift_chain {a : Nat} {n : Node Task} (hl : Chain h q l)
    (hn : h.get a = some n) (ha : a ∉ addrs l) :
    ∃ h' q', unshift h q a = some (h', q')
      ∧ Chain h' q' ((a, n.value) :: l) ∧ q'.size = q.size := by
  obtain ⟨h', q₁, hp, hl', -⟩ := unshift_spec hl hn ha
  rw [unshift_resize] at hp
  obtain ⟨⟨h₂, q'⟩, hq, heq⟩ := Option.map_eq_some_iff.mp hp
  obtain ⟨rfl, rfl⟩ := Prod.mk.inj heq
  refine ⟨h₂, q', hq, ?_, ?_⟩
  · unfold Chain
    rw [List.length_cons]
    exact hl'
  · have hsize := unshift_resize h q a q.size
    rw [hq] at hsize
    exact congrArg (fun r => r.2.size) (Option.some.inj hsize)

/-- `pmmpthread_queue_remove`, whatever the size says. -/
theorem remove_chain {e : Nat × Task} (hl : Chain h q (l₁ ++ e :: l₂))
    (free : Bool) :
    ∃ h' q', remove h q (some e.1) free = some (some e.2, h', q')
      ∧ Chain h' q' (l₁ ++ l₂) ∧ q'.size = q.size - 1 := by
  obtain ⟨h', q₁, hp, hl', -⟩ := remove_spec hl free
  rw [remove_resize] at hp
  obtain ⟨⟨v, h₂, q'⟩, hq, heq⟩ := Option.map_eq_some_iff.mp hp
  obtain ⟨rfl, heq⟩ := Prod.mk.inj heq
  obtain ⟨rfl, rfl⟩ := Prod.mk.inj heq
  refine ⟨h₂, q', hq, ?_, ?_⟩
  · have hlen : ((l₁ ++ l₂).length : Int) = (l₁ ++ e :: l₂).length - 1 := by
      rw [List.length_append, List.length_append, List.length_cons]
      omega
    unfold Chain
    rw [hlen]
    exact hl'
  · have hsize := remove_resize h q e.1 free q.size
    rw [hq] at hsize
    exact congrArg (fun r => r.2.2.size) (Option.some.inj hsize)

end Queue

-- ============================================================ one step

/-- What an operation does to a queue that has the links of `l`. -/
structure Kept (A : Allocator) (s : QueueState) (l : List (Nat × Task))
    (op : QueueOp) (r : Option Int) (s' : QueueState) : Prop where
  applied : op.apply A s = some (r, s')
  chain : Chain s'.items s'.queue (op.sequence A s.items l)
  size : s'.queue.size + l.length + (if op.isUnshift then 1 else 0)
    = s.queue.size + (op.sequence A s.items l).length
  returned : ∀ n, r = some n →
    n = s'.queue.size ∨ n = 0 ∧ op.sequence A s.items l = []

variable {s s' : QueueState}

namespace QueueOp

/-- What a live item has. -/
theorem item_eq {a : Nat} {n : Node Task} (hn : h.get a = some n) :
    item h a = [(a, n.value)] := by
  unfold item
  rw [hn]
  rfl

/-- Each operation keeps the chain and answers as the list does: the pushes
of an item, -/
theorem kept_push {a : Nat} (hl : Chain s.items s.queue l)
    (hop : (push a).Legal s.items l) :
    ∃ r s', Kept A s l (push a) r s' := by
  obtain ⟨ha, hsome⟩ := hop
  obtain ⟨n, hn⟩ := Option.isSome_iff_exists.mp hsome
  obtain ⟨h', q', hp, hl', hsize⟩ := Queue.push_chain hl hn ha
  refine ⟨none, ⟨h', q'⟩, ?_, ?_, ?_, fun n hn => nomatch hn⟩
  · simp [apply, hp]
  · simpa [sequence, item_eq hn] using hl'
  · simp only [sequence, item_eq hn, hsize, isUnshift, List.length_append,
      List.length_singleton, Bool.false_eq_true, if_false]
    omega

theorem kept_unshift {a : Nat} (hl : Chain s.items s.queue l)
    (hop : (unshift a).Legal s.items l) :
    ∃ r s', Kept A s l (unshift a) r s' := by
  obtain ⟨ha, hsome⟩ := hop
  obtain ⟨n, hn⟩ := Option.isSome_iff_exists.mp hsome
  obtain ⟨h', q', hp, hl', hsize⟩ := Queue.unshift_chain hl hn ha
  refine ⟨none, ⟨h', q'⟩, ?_, ?_, ?_, fun n hn => nomatch hn⟩
  · simp [apply, hp]
  · simpa [sequence, item_eq hn] using hl'
  · simp only [sequence, item_eq hn, hsize, isUnshift, List.length_append,
      List.length_singleton, if_true]
    omega

/-- those of a new one, -/
theorem kept_pushNew (v : Task) (hl : Chain s.items s.queue l) :
    ∃ r s', Kept A s l (pushNew v) r s' := by
  obtain ⟨hne, hl₁⟩ := Queue.new_apart A ⟨v, none, none⟩ hl
  obtain ⟨h', q', hp, hl', hsize⟩ :=
    Queue.push_chain hl₁ (Heap.get_place_self _ _ _) hne
  refine ⟨none, ⟨h', q'⟩, ?_, hl', ?_, fun n hn => nomatch hn⟩
  · simp [apply, Queue.pushNew, hp]
  · simp only [sequence, hsize, isUnshift, List.length_append,
      List.length_singleton, Bool.false_eq_true, if_false]
    omega

theorem kept_unshiftNew (v : Task) (hl : Chain s.items s.queue l) :
    ∃ r s', Kept A s l (unshiftNew v) r s' := by
  obtain ⟨hne, hl₁⟩ := Queue.new_apart A ⟨v, none, none⟩ hl
  obtain ⟨h', q', hp, hl', hsize⟩ :=
    Queue.unshift_chain hl₁ (Heap.get_place_self _ _ _) hne
  refine ⟨none, ⟨h', q'⟩, ?_, hl', ?_, fun n hn => nomatch hn⟩
  · simp [apply, Queue.unshiftNew, hp]
  · simp only [sequence, hsize, isUnshift, List.length_cons, if_true]
    omega

/-- the operations at the ends, -/
theorem kept_shift (free : Bool) (hl : Chain s.items s.queue l) :
    ∃ r s', Kept A s l (shift free) r s' := by
  cases l with
  | nil =>
      have hhead : s.queue.head = none := hl.head_eq_none.mpr rfl
      refine ⟨some 0, s, ?_, hl, ?_, fun n hn => Or.inr ⟨?_, rfl⟩⟩
      · simp [apply, Queue.shift, Queue.remove, Queue.returned, hhead]
      · simp [sequence, isUnshift]
      · exact (Option.some.inj hn).symm
  | cons e l =>
      have hhead : s.queue.head = some e.1 := hl.head_cons
      have hfirst : Chain s.items s.queue ([] ++ e :: l) := hl
      obtain ⟨h', q', hp, hl', hsize⟩ := Queue.remove_chain hfirst free
      refine ⟨some q'.size, ⟨h', q'⟩, ?_, hl', ?_, fun n hn => Or.inl ?_⟩
      · simp [apply, Queue.shift, hhead, hp, Queue.returned]
      · simp only [sequence, isUnshift, hsize, List.tail_cons,
          List.length_cons, Bool.false_eq_true, if_false]
        omega
      · exact (Option.some.inj hn).symm

theorem kept_pop (free : Bool) (hl : Chain s.items s.queue l) :
    ∃ r s', Kept A s l (pop free) r s' := by
  rcases List.eq_nil_or_concat' l with rfl | ⟨l, e, rfl⟩
  · have htail : s.queue.tail = none := hl.tail_eq_none.mpr rfl
    refine ⟨some 0, s, ?_, hl, ?_, fun n hn => Or.inr ⟨?_, rfl⟩⟩
    · simp [apply, Queue.pop, Queue.remove, Queue.returned, htail]
    · simp [sequence, isUnshift]
    · exact (Option.some.inj hn).symm
  · have htail : s.queue.tail = some e.1 := by
      rw [← getLast?_concat l e]
      exact hl.tail
    obtain ⟨h', q', hp, hl', hsize⟩ := Queue.remove_chain hl free
    rw [List.append_nil] at hl'
    refine ⟨some q'.size, ⟨h', q'⟩, ?_, ?_, ?_, fun n hn => Or.inl ?_⟩
    · simp [apply, Queue.pop, htail, hp, Queue.returned]
    · simpa [sequence] using hl'
    · simp only [sequence, isUnshift, hsize, List.dropLast_concat,
        List.length_append, List.length_singleton, Bool.false_eq_true,
        if_false]
      omega
    · exact (Option.some.inj hn).symm

/-- Only the item itself is left out. -/
theorem filter_between {e : Nat × Task}
    (hne : e.1 ∉ addrs (l₁ ++ l₂)) :
    ((l₁ ++ e :: l₂).filter fun d => d.1 != e.1) = l₁ ++ l₂ := by
  have hkeep : ∀ d ∈ l₁ ++ l₂, (d.1 != e.1) = true := by
    intro d hd
    rw [bne_iff_ne]
    intro heq
    rw [← heq] at hne
    exact hne (List.mem_map_of_mem hd)
  rw [List.filter_append, List.filter_cons_of_neg (by simp),
    ← List.filter_append, List.filter_eq_self.mpr hkeep]

/-- the one in the middle, -/
theorem kept_remove {a : Nat} (free : Bool) (hl : Chain s.items s.queue l)
    (hop : (remove a free).Legal s.items l) :
    ∃ r s', Kept A s l (remove a free) r s' := by
  obtain ⟨e, he, rfl⟩ := List.mem_map.mp hop
  obtain ⟨l₁, l₂, rfl⟩ := List.append_of_mem he
  obtain ⟨h', q', hp, hl', hsize⟩ := Queue.remove_chain hl free
  have hseq := filter_between hl.not_mem_rest
  refine ⟨some q'.size, ⟨h', q'⟩, ?_, ?_, ?_, fun n hn => Or.inl ?_⟩
  · simp [apply, hp, Queue.returned]
  · simpa only [sequence, hseq] using hl'
  · simp only [sequence, hseq, isUnshift, hsize, List.length_append,
      List.length_cons, Bool.false_eq_true, if_false]
    omega
  · exact (Option.some.inj hn).symm

/-- and whatever happens to items of other queues. -/
theorem kept_elsewhere {items : Items} (hl : Chain s.items s.queue l)
    (hop : (elsewhere items).Legal s.items l) :
    ∃ r s', Kept A s l (elsewhere items) r s' := by
  refine ⟨none, ⟨items, s.queue⟩, rfl, hl.congr hop, ?_,
    fun n hn => nomatch hn⟩
  simp [sequence, isUnshift]

/-- Every operation goes through, and keeps the links. -/
theorem kept (A : Allocator) (op : QueueOp) (hl : Chain s.items s.queue l)
    (hop : op.Legal s.items l) : ∃ r s', Kept A s l op r s' := by
  cases op with
  | push a => exact kept_push hl hop
  | pushNew v => exact kept_pushNew v hl
  | unshift a => exact kept_unshift hl hop
  | unshiftNew v => exact kept_unshiftNew v hl
  | shift free => exact kept_shift free hl
  | pop free => exact kept_pop free hl
  | remove a free => exact kept_remove free hl hop
  | elsewhere items => exact kept_elsewhere hl hop

end QueueOp

-- =========================================================== the walks

/-- A walk along `next` meets the chain in order, -/
theorem visits_next {p : Option Nat} (hl : Segment h p l none) :
    Visits Node.next h (addrs l).head? l := by
  induction l generalizing p with
  | nil => trivial
  | cons e l ih =>
      refine ⟨rfl, _, hl.1, rfl, ?_⟩
      rw [Option.or_none]
      exact ih hl.2

/-- and one along `prev` in the reverse order. -/
theorem visits_prev {nx : Option Nat} (hl : Segment h none l nx) :
    Visits Node.prev h (addrs l).getLast? l.reverse := by
  induction l using List.reverseRecOn generalizing nx with
  | nil => trivial
  | append_singleton l e ih =>
      obtain ⟨hl₁, hl₂⟩ := segment_append.mp hl
      rw [getLast?_concat, List.reverse_append]
      refine ⟨rfl, _, hl₂.1, rfl, ?_⟩
      rw [Option.or_none]
      exact ih hl₁

theorem rightLinks_of_chain (hl : Chain s.items s.queue l) :
    RightLinks s l where
  forward := by
    have hhead : s.queue.head = _ := hl.head
    rw [hhead]
    exact visits_next (linked_iff_segment.mp hl.linked)
  backward := by
    have htail : s.queue.tail = _ := hl.tail
    rw [htail]
    exact visits_prev (linked_iff_segment.mp hl.linked)
  head := hl.head
  tail := hl.tail
  head_null := hl.head_eq_none
  tail_null := hl.tail_eq_none

-- ============================================================ the runs

/-- After any run: the links are right, and the size is short by the
number of items that were unshifted. -/
structure RunKept (ops : List QueueOp) (s : QueueState)
    (l : List (Nat × Task)) (r : Option Int) : Prop where
  chain : Chain s.items s.queue l
  size : s.queue.size + ops.countP QueueOp.isUnshift = l.length
  returned : ∀ n, r = some n → n = s.queue.size ∨ n = 0 ∧ l = []

/-- By induction on the run. -/
theorem QueueRun.kept {ops : List QueueOp} {r : Option Int}
    (hr : QueueRun A ops s l r) : RunKept ops s l r := by
  induction hr with
  | zeroed h => exact ⟨holds_empty h, rfl, fun n hn => nomatch hn⟩
  | @step ops s s' l r r' op _ hop hs ih =>
      obtain ⟨r₁, s₁, hk⟩ := QueueOp.kept A op ih.chain hop
      have heq := hs.symm.trans hk.applied
      obtain ⟨rfl, rfl⟩ := Prod.mk.inj (Option.some.inj heq)
      refine ⟨hk.chain, ?_, hk.returned⟩
      have hsize := hk.size
      have hcount := ih.size
      rw [List.countP_append, List.countP_singleton]
      cases hu : op.isUnshift with
      | true =>
          rw [hu] at hsize
          simp only [if_true] at hsize ⊢
          omega
      | false =>
          rw [hu] at hsize
          simp only [Bool.false_eq_true, if_false] at hsize ⊢
          omega

/-- After a run of operations on a zeroed queue, the queue represents the
sequence of its items if and only if nothing was unshifted. -/
theorem queue_run_iff (A : Allocator) {ops : List QueueOp} {s : QueueState}
    {l : List (Nat × Task)} {r : Option Int} (hr : QueueRun A ops s l r) :
    Represents A s l r ↔ ∀ op ∈ ops, op.isUnshift = false := by
  obtain ⟨hl, hsize, hret⟩ := hr.kept
  have hcount : ops.countP QueueOp.isUnshift = 0
      ↔ ∀ op ∈ ops, op.isUnshift = false := by
    simp [List.countP_eq_zero]
  rw [← hcount]
  constructor
  · intro hrep
    have hrep' := hrep.size
    omega
  · intro hzero
    refine ⟨rightLinks_of_chain hl, by omega, fun n hn => ?_, fun op hop => ?_⟩
    · rcases hret n hn with heq | ⟨heq, hnil⟩
      · omega
      · rw [heq, hnil]
        rfl
    · obtain ⟨r', s', hk⟩ := QueueOp.kept A op hl hop
      rw [hk.applied]
      rfl

/-- Two items, the first of which is taken out and put in again behind the
other one. -/
theorem queue_run_iff_reused : ∃ s r,
    QueueRun .bump [.pushNew ⟨7, 0⟩, .pushNew ⟨8, 1⟩, .shift false, .push 1]
      s [(2, ⟨8, 1⟩), (1, ⟨7, 0⟩)] r
    ∧ Represents .bump s [(2, ⟨8, 1⟩), (1, ⟨7, 0⟩)] r := by
  have h₁ : QueueRun .bump [.pushNew ⟨7, 0⟩] _ [(1, ⟨7, 0⟩)] _ :=
    QueueRun.step (.zeroed Heap.empty) trivial rfl
  have h₂ : QueueRun .bump [.pushNew ⟨7, 0⟩, .pushNew ⟨8, 1⟩] _
      [(1, ⟨7, 0⟩), (2, ⟨8, 1⟩)] _ := QueueRun.step h₁ trivial rfl
  have h₃ : QueueRun .bump
      [.pushNew ⟨7, 0⟩, .pushNew ⟨8, 1⟩, .shift false] _ [(2, ⟨8, 1⟩)] _ :=
    QueueRun.step h₂ trivial rfl
  have h₄ : QueueRun .bump
      [.pushNew ⟨7, 0⟩, .pushNew ⟨8, 1⟩, .shift false, .push 1] _
      [(2, ⟨8, 1⟩), (1, ⟨7, 0⟩)] _ :=
    QueueRun.step h₃ ⟨by decide, rfl⟩ rfl
  exact ⟨_, _, h₄, (queue_run_iff .bump h₄).mpr (by decide)⟩

/-- One item is unshifted into a zeroed queue: it is there, and the size
is zero. -/
theorem queue_run_unshift : ∃ s,
    QueueRun .bump [.unshiftNew ⟨7, 0⟩] s [(1, ⟨7, 0⟩)] none
    ∧ s.queue.size = 0
    ∧ ¬ Represents .bump s [(1, ⟨7, 0⟩)] none := by
  have h₁ : QueueRun .bump [.unshiftNew ⟨7, 0⟩] _ [(1, ⟨7, 0⟩)] _ :=
    QueueRun.step (.zeroed Heap.empty) trivial rfl
  refine ⟨_, h₁, rfl, fun hrep => ?_⟩
  exact absurd hrep.size (by decide)

/-- The links are right in any case. -/
theorem QueueRun.links {ops : List QueueOp} {r : Option Int}
    (hr : QueueRun A ops s l r) : RightLinks s l :=
  rightLinks_of_chain hr.kept.chain

end PmmpThread.Model
