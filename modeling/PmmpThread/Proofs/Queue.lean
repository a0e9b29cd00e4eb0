/-
The linked queues of a worker are lists: what each function of
src/worker.c does to the three queues and the running item, in terms of
the lists of their items (`Rep`).

# Separation

All items live in one heap, and the running item belongs to no queue.
One statement keeps them apart: the addresses of all of them together
are distinct. An operation moves items between the places, adds a new
one or drops one; the rest of its lists is carried over by the frame of
the queue operation (`push_spec`, `shift_spec`).
-/
import PmmpThread.Model.Worker

namespace PmmpThread.Model

open Zend Dlist

variable {A : Allocator} {h h' : Items} {q q' : Dlist}
  {l l₁ l₂ : List (Nat × Task)}

namespace Queue

-- ==================================================== queue operations

theorem assign_eq {a : Nat} {n : Node Task} {f : Node Task → Node Task}
    (hn : h.get a = some n) : assign h a f = some (h.modify a f) := by
  unfold assign
  rw [hn]
  rfl

/-- `pmmpthread_queue_push` of an item that is in no list. -/
theorem push_spec {a : Nat} {n : Node Task} (hl : Holds h q l)
    (hn : h.get a = some n) (ha : a ∉ addrs l) :
    ∃ h' q', push h q a = some (h', q')
      ∧ Holds h' q' (l ++ [(a, n.value)])
      ∧ ∀ c, c ≠ a → c ∉ addrs l → h'.get c = h.get c := by
  unfold push
  cases ht : q.tail with
  | none =>
      unfold setPrevAndNext
      rw [assign_eq hn]
      refine ⟨_, _, rfl, ?_, fun c hc _ => Heap.get_modify_ne _ _ hc⟩
      have hnil := hl.tail_eq_none.mp ht
      refine hl.snoc ha ?_ (fun b m hb => ?_) (fun c hc => ?_) ?_
      · rw [Heap.get_modify_self, hn, ht]
        rfl
      · rw [ht] at hb
        cases hb
      · rw [hnil] at hc
        cases hc
      · rw [hl.head_eq_none.mpr hnil]
        rfl
  | some b =>
      have hbl : b ∈ addrs l := by
        rw [hl.tail] at ht
        exact List.mem_of_getLast? ht
      obtain ⟨m, hm⟩ := hl.live hbl
      have hab : a ≠ b := by
        intro hab
        exact ha (hab ▸ hbl)
      have hn' : (h.modify b fun n => { n with next := some a }).get a
          = some n := by
        rw [Heap.get_modify_ne _ _ hab]
        exact hn
      unfold setPrevAndNext
      simp only [assign_eq hm, Option.bind_some, assign_eq hn',
        Option.map_some]
      refine ⟨_, _, rfl, ?_, fun c hc hcl => ?_⟩
      · refine hl.snoc ha ?_ (fun b' m' hb' hm' => ?_) (fun c hc hne => ?_) ?_
        · rw [Heap.get_modify_self, hn', ht]
          rfl
        · rw [ht] at hb'
          rw [← Option.some.inj hb'] at hm' ⊢
          rw [Heap.get_modify_ne _ _ hab.symm, Heap.get_modify_self, hm']
          rfl
        · have hca : c ≠ a := fun hca => ha (hca ▸ hc)
          have hcb : c ≠ b := fun hcb => hne (by rw [ht, hcb])
          rw [Heap.get_modify_ne _ _ hca, Heap.get_modify_ne _ _ hcb]
        · cases hh : q.head with
          | some c => rfl
          | none =>
              rw [hl.head_eq_none.mp hh] at hbl
              cases hbl
      · have hcb : c ≠ b := fun hcb => hcl (hcb ▸ hbl)
        rw [Heap.get_modify_ne _ _ hc, Heap.get_modify_ne _ _ hcb]

/-- A new item is in no list, and no list sees it. -/
theorem new_apart (A : Allocator) (n : Node Task) (hl : Holds h q l) :
    h.next A ∉ addrs l ∧ Holds (h.place (h.next A) n) q l := by
  have hne : h.next A ∉ addrs l := by
    intro hm
    obtain ⟨m, hm⟩ := hl.live hm
    rw [h.get_next A] at hm
    cases hm
  refine ⟨hne, hl.congr fun c hc => ?_⟩
  have hca : c ≠ h.next A := fun hca => hne (hca ▸ hc)
  rw [Heap.get_place, if_neg hca]

/-- `pmmpthread_queue_push_new`. -/
theorem pushNew_spec (A : Allocator) (v : Task) (hl : Holds h q l) :
    ∃ a h' q', pushNew A h q v = some (h', q') ∧ h.get a = none
      ∧ Holds h' q' (l ++ [(a, v)])
      ∧ ∀ c, c ≠ a → c ∉ addrs l → h'.get c = h.get c := by
  obtain ⟨hne, hl'⟩ := new_apart A ⟨v, none, none⟩ hl
  obtain ⟨h', q', hp, hl'', hsame⟩ :=
    push_spec hl' (Heap.get_place_self _ _ _) hne
  refine ⟨h.next A, h', q', hp, h.get_next A, hl'', fun c hc hcl => ?_⟩
  rw [hsame c hc hcl, Heap.get_place, if_neg hc]

/-- The links of `pmmpthread_queue_remove`, a case for each branch. -/
theorem unlink_spec {e : Nat × Task} (hl : Holds h q (l₁ ++ e :: l₂)) :
    ∃ h', unlink h q e.1 ⟨e.2, (addrs l₁).getLast?, (addrs l₂).head?⟩
        = some (h', ⟨if l₁ = [] then (addrs l₂).head? else q.head,
          if l₂ = [] then (addrs l₁).getLast? else q.tail, q.size - 1⟩)
      ∧ (∀ b n, (addrs l₁).getLast? = some b → h.get b = some n →
        h'.get b = some { n with next := (addrs l₂).head? })
      ∧ (∀ b n, (addrs l₂).head? = some b → h.get b = some n →
        h'.get b = some { n with prev := (addrs l₁).getLast? })
      ∧ ∀ c, (addrs l₁).getLast? ≠ some c → (addrs l₂).head? ≠ some c →
        h'.get c = h.get c := by
  unfold unlink
  simp only [hl.head_eq_iff, hl.tail_eq_iff]
  rcases List.eq_nil_or_concat' l₁ with rfl | ⟨l₁, b, rfl⟩
  · cases l₂ with
    | nil =>
        refine ⟨h, rfl, fun b n hb => ?_, fun b n hb => ?_, fun _ _ _ => rfl⟩
        · cases hb
        · cases hb
    | cons c l₂ =>
        obtain ⟨m, hm⟩ := hl.live (a := c.1) (by simp)
        refine ⟨h.modify c.1 fun m => { m with prev := none }, ?_,
          fun b n hb => ?_, fun b n hb hn => ?_, fun d _ hd => ?_⟩
        · simp [assign_eq hm]
        · cases hb
        · cases hb
          rw [Heap.get_modify_self, hn]
          rfl
        · rw [Heap.get_modify_ne _ _ fun heq => hd (by rw [heq]; rfl)]
  · obtain ⟨m, hm⟩ := hl.live (a := b.1) (by simp)
    rw [getLast?_concat]
    cases l₂ with
    | nil =>
        refine ⟨h.modify b.1 fun m => { m with next := none }, ?_,
          fun d n hd hn => ?_, fun d n hd => ?_, fun d hd _ => ?_⟩
        · simp [assign_eq hm]
        · cases hd
          rw [Heap.get_modify_self, hn]
          rfl
        · cases hd
        · rw [Heap.get_modify_ne _ _ fun heq => hd (by rw [heq])]
    | cons c l₂ =>
        obtain ⟨m', hm'⟩ := hl.live (a := c.1) (by simp)
        have hbc : b.1 ≠ c.1 := by
          have hnd := hl.nodup
          rw [addrs_append] at hnd
          exact (List.nodup_append.mp hnd).2.2 b.1 (by simp) c.1 (by simp)
        have hmc : (h.modify c.1 fun m => { m with prev := some b.1 }).get b.1
            = some m := by
          rw [Heap.get_modify_ne _ _ hbc]
          exact hm
        refine ⟨(h.modify c.1 fun m => { m with prev := some b.1 }).modify b.1
          fun m => { m with next := some c.1 }, ?_, fun d n hd hn => ?_,
          fun d n hd hn => ?_, fun d hd hd' => ?_⟩
        · simp [assign_eq hm', assign_eq hmc]
        · cases hd
          rw [Heap.get_modify_self, Heap.get_modify_ne _ _ hbc, hn]
          rfl
        · cases hd
          rw [Heap.get_modify_ne _ _ hbc.symm, Heap.get_modify_self, hn]
          rfl
        · rw [Heap.get_modify_ne _ _ fun heq => hd (by rw [heq]),
            Heap.get_modify_ne _ _ fun heq => hd' (by rw [heq]; rfl)]

/-- `pmmpthread_queue_remove` of an item of the queue, wherever it is. -/
theorem remove_spec {e : Nat × Task} (hl : Holds h q (l₁ ++ e :: l₂))
    (free : Bool) :
    ∃ h' q', remove h q (some e.1) free = some (some e.2, h', q')
      ∧ Holds h' q' (l₁ ++ l₂)
      ∧ (free = false → ∃ n, h'.get e.1 = some n ∧ n.value = e.2)
      ∧ ∀ c, c ≠ e.1 → c ∉ addrs (l₁ ++ l₂) → h'.get c = h.get c := by
  obtain ⟨h₁, hu, hprev, hnext, hsame⟩ := unlink_spec hl
  have hl₁ := hl.unlink hprev hnext hsame rfl
  have hne := hl.not_mem_rest
  have hrest : ∀ c, c ∉ addrs (l₁ ++ l₂) → h₁.get c = h.get c := by
    intro c hc
    rw [addrs_append, List.mem_append, not_or] at hc
    refine hsame c (fun hlast => ?_) fun hhead => ?_
    · exact hc.1 (List.mem_of_getLast? hlast)
    · exact hc.2 (List.mem_of_head? hhead)
  unfold remove
  simp only [hl.get_between, Option.bind_some, hu, Option.map_some]
  cases free with
  | true =>
      refine ⟨_, _, rfl, hl₁.congr fun c hc => ?_, fun hf => (by cases hf),
        fun c hc hcl => ?_⟩
      · have hce : c ≠ e.1 := fun hce => hne (hce ▸ hc)
        show (h₁.free e.1).get c = _
        rw [Heap.get_free, if_neg hce]
      · show (h₁.free e.1).get c = _
        rw [Heap.get_free, if_neg hc]
        exact hrest c hcl
  | false =>
      refine ⟨_, _, rfl, hl₁, fun _ => ?_, fun c _ hcl => ?_⟩
      · have hkept := (hrest e.1 hne).trans hl.get_between
        exact ⟨_, hkept, rfl⟩
      · exact hrest c hcl

/-- `pmmpthread_queue_shift` of a queue that is not empty. -/
theorem shift_spec {e : Nat × Task} (hl : Holds h q (e :: l))
    (free : Bool) :
    ∃ h' q', shift h q free = some (some e.2, h', q') ∧ Holds h' q' l
      ∧ (free = false → ∃ n, h'.get e.1 = some n ∧ n.value = e.2)
      ∧ ∀ c, c ≠ e.1 → c ∉ addrs l → h'.get c = h.get c := by
  have hfirst : Holds h q ([] ++ e :: l) := hl
  unfold shift
  rw [hl.head_cons]
  exact remove_spec hfirst free

/-- `pmmpthread_queue_shift` of an empty queue. -/
theorem shift_empty (hl : Holds h q ([] : List (Nat × Task)))
    (free : Bool) : shift h q free = some (none, h, q) := by
  unfold shift remove
  rw [hl.head]
  rfl

end Queue

-- ================================================== the representation

/-- The items of the queue, of the gc queue and of the cache, and the
running one. -/
structure Places where
  queue : List (Nat × Task)
  gc : List (Nat × Task)
  cache : List (Nat × Task)
  running : Option (Nat × Task)

/-- The addresses of all items. -/
def Places.all (x : Places) : List Nat :=
  addrs x.queue ++ (addrs x.gc ++ (addrs x.cache ++ addrs x.running.toList))

/-- The worker data has these items in these places. -/
structure Rep (d : WorkerData) (x : Places) : Prop where
  queue : Holds d.items d.queue x.queue
  gc : Holds d.items d.gc x.gc
  cache : Holds d.items d.doneTasksCache x.cache
  running : d.running = x.running.map Prod.fst
  live : ∀ e, x.running = some e →
    ∃ n, d.items.get e.1 = some n ∧ n.value = e.2
  nodup : x.all.Nodup

theorem rep_alloc : Rep .alloc ⟨[], [], [], none⟩ where
  queue := holds_empty _
  gc := holds_empty _
  cache := holds_empty _
  running := rfl
  live _ h := by cases h
  nodup := List.nodup_nil

theorem Places.mem_all {x : Places} {a : Nat} : a ∈ x.all ↔ a ∈ addrs x.queue
    ∨ a ∈ addrs x.gc ∨ a ∈ addrs x.cache ∨ a ∈ addrs x.running.toList := by
  unfold Places.all
  simp only [List.mem_append]

/-- Every item of a worker is live. -/
theorem Rep.mem_live {d : WorkerData} {x : Places} (hr : Rep d x) {a : Nat}
    (ha : a ∈ x.all) : ∃ n, d.items.get a = some n := by
  rcases Places.mem_all.mp ha with ha | ha | ha | ha
  · exact hr.queue.live ha
  · exact hr.gc.live ha
  · exact hr.cache.live ha
  · obtain ⟨e, he, rfl⟩ := List.mem_map.mp ha
    obtain ⟨n, hn, -⟩ := hr.live e (Option.mem_toList.mp he)
    exact ⟨n, hn⟩

/-- The addresses in the other places than the queue. -/
theorem Rep.queue_apart {d : WorkerData} {x : Places} (hr : Rep d x)
    {a : Nat} (ha : a ∈ addrs x.gc ∨ a ∈ addrs x.cache
      ∨ a ∈ addrs x.running.toList) : a ∉ addrs x.queue := by
  intro haq
  have hnd := List.nodup_append.mp hr.nodup
  refine hnd.2.2 a haq a ?_ rfl
  simpa only [List.mem_append] using ha

theorem Rep.gc_apart {d : WorkerData} {x : Places} (hr : Rep d x)
    {a : Nat} (ha : a ∈ addrs x.queue ∨ a ∈ addrs x.cache
      ∨ a ∈ addrs x.running.toList) : a ∉ addrs x.gc := by
  intro hag
  rcases ha with ha | ha
  · exact hr.queue_apart (Or.inl hag) ha
  · have hnd := List.nodup_append.mp hr.nodup
    have hnd' := List.nodup_append.mp hnd.2.1
    refine hnd'.2.2 a hag a ?_ rfl
    simpa only [List.mem_append] using ha

theorem Rep.cache_apart {d : WorkerData} {x : Places} (hr : Rep d x)
    {a : Nat} (ha : a ∈ addrs x.queue ∨ a ∈ addrs x.gc
      ∨ a ∈ addrs x.running.toList) : a ∉ addrs x.cache := by
  intro hac
  rcases ha with ha | ha | ha
  · exact hr.queue_apart (Or.inr (Or.inl hac)) ha
  · exact hr.gc_apart (Or.inr (Or.inl hac)) ha
  · have hnd := List.nodup_append.mp hr.nodup
    have hnd' := List.nodup_append.mp hnd.2.1
    exact (List.nodup_append.mp hnd'.2.1).2.2 a hac a ha rfl

theorem running_mem {x : Places} {e : Nat × Task} (h : x.running = some e) :
    e.1 ∈ addrs x.running.toList := by
  rw [h]
  exact List.mem_singleton_self _

/-- The queue is changed, and the items of the other places are not. -/
theorem Rep.setQueue {d : WorkerData} {x : Places} (hr : Rep d x)
    (hq : Holds h' q' l)
    (hframe : ∀ c, c ∈ addrs x.gc ∨ c ∈ addrs x.cache
      ∨ c ∈ addrs x.running.toList → h'.get c = d.items.get c)
    (hnd : Places.all { x with queue := l } |>.Nodup) :
    Rep { d with items := h', queue := q' } { x with queue := l } where
  queue := hq
  gc := hr.gc.congr fun c hc => hframe c (Or.inl hc)
  cache := hr.cache.congr fun c hc => hframe c (Or.inr (Or.inl hc))
  running := hr.running
  live e he := by
    rw [hframe e.1 (Or.inr (Or.inr (running_mem he)))]
    exact hr.live e he
  nodup := hnd

/-- The same of the cache. -/
theorem Rep.setCache {d : WorkerData} {x : Places} (hr : Rep d x)
    (hc : Holds h' q' l)
    (hframe : ∀ c, c ∈ addrs x.queue ∨ c ∈ addrs x.gc
      ∨ c ∈ addrs x.running.toList → h'.get c = d.items.get c)
    (hnd : Places.all { x with cache := l } |>.Nodup) :
    Rep { d with items := h', doneTasksCache := q' }
      { x with cache := l } where
  queue := hr.queue.congr fun c hc => hframe c (Or.inl hc)
  gc := hr.gc.congr fun c hc => hframe c (Or.inr (Or.inl hc))
  cache := hc
  running := hr.running
  live e he := by
    rw [hframe e.1 (Or.inr (Or.inr (running_mem he)))]
    exact hr.live e he
  nodup := hnd

namespace WorkerData

variable {d : WorkerData} {x : Places}

-- ========================================================= operations

/-- `pmmpthread_worker_add_task`. -/
theorem addTask_spec (A : Allocator) (v : Task) (hr : Rep d x) :
    ∃ a d', d.addTask A v = some (decide (x.queue = []), d')
      ∧ Rep d' { x with queue := x.queue ++ [(a, v)] }
      ∧ d'.tasksCollected = d.tasksCollected := by
  obtain ⟨a, h', q', hp, hfresh, hq, hsame⟩ := Queue.pushNew_spec A v hr.queue
  have hall : a ∉ x.all := by
    intro ha
    obtain ⟨n, hn⟩ := hr.mem_live ha
    rw [hfresh] at hn
    cases hn
  have hframe : ∀ c, c ∈ addrs x.gc ∨ c ∈ addrs x.cache
      ∨ c ∈ addrs x.running.toList → h'.get c = d.items.get c := by
    intro c hc
    refine hsame c (fun hca => hall ?_) (hr.queue_apart hc)
    exact Places.mem_all.mpr (Or.inr (hca ▸ hc))
  have hempty : (d.queue.size == 0) = decide (x.queue = []) := by
    rw [Bool.eq_iff_iff, beq_iff_eq, decide_eq_true_eq]
    exact hr.queue.size_eq_zero
  refine ⟨a, { d with items := h', queue := q' }, ?_, ?_, rfl⟩
  · unfold addTask
    rw [hp, Option.map_some, hempty]
  · refine hr.setQueue hq hframe ?_
    unfold Places.all
    rw [addrs_append, List.append_assoc]
    exact (List.perm_middle.nodup_iff).mpr
      (List.nodup_cons.mpr ⟨hall, hr.nodup⟩)

/-- `pmmpthread_worker_dequeue_task`. -/
theorem dequeueTask_nil (hr : Rep d x) (hx : x.queue = []) :
    d.dequeueTask = some (none, d) := by
  have hq := hr.queue
  rw [hx] at hq
  unfold dequeueTask
  rw [Queue.shift_empty hq]
  rfl

theorem dequeueTask_cons {e : Nat × Task} {l : List (Nat × Task)}
    (hr : Rep d x) (hx : x.queue = e :: l) :
    ∃ d', d.dequeueTask = some (some e.2, d')
      ∧ Rep d' { x with queue := l }
      ∧ d'.tasksCollected = d.tasksCollected := by
  have hq := hr.queue
  rw [hx] at hq
  obtain ⟨h', q', hs, hl, -, hsame⟩ := Queue.shift_spec hq true
  have hframe : ∀ c, c ∈ addrs x.gc ∨ c ∈ addrs x.cache
      ∨ c ∈ addrs x.running.toList → h'.get c = d.items.get c := by
    intro c hc
    have hcq := hr.queue_apart hc
    rw [hx, addrs_cons, List.mem_cons, not_or] at hcq
    exact hsame c hcq.1 hcq.2
  refine ⟨{ d with items := h', queue := q' }, ?_, ?_, rfl⟩
  · unfold dequeueTask
    rw [hs]
    rfl
  · refine hr.setQueue hl hframe ?_
    have hnd := hr.nodup
    unfold Places.all at hnd ⊢
    rw [hx] at hnd
    exact (List.nodup_cons.mp hnd).2

/-- `pmmpthread_worker_next_task` with a task in the queue. -/
theorem takeTask_spec {e : Nat × Task} {l : List (Nat × Task)}
    (hr : Rep d x) (hx : x.queue = e :: l) (hrun : x.running = none) :
    ∃ d', d.takeTask = some (some e.2, d')
      ∧ Rep d' { x with queue := l, running := some e }
      ∧ d'.tasksCollected = d.tasksCollected := by
  have hq := hr.queue
  rw [hx] at hq
  obtain ⟨h', q', hs, hl, hlive, hsame⟩ := Queue.shift_spec hq false
  have hframe : ∀ c, c ∈ addrs x.gc ∨ c ∈ addrs x.cache →
      h'.get c = d.items.get c := by
    intro c hc
    have hcq := hr.queue_apart (hc.imp_right Or.inl)
    rw [hx, addrs_cons, List.mem_cons, not_or] at hcq
    exact hsame c hcq.1 hcq.2
  refine ⟨{ d with items := h', queue := q', running := d.queue.head }, ?_, ?_,
    rfl⟩
  · unfold takeTask
    rw [hs]
    rfl
  · exact
      { queue := hl
        gc := hr.gc.congr fun c hc => hframe c (Or.inl hc)
        cache := hr.cache.congr fun c hc => hframe c (Or.inr hc)
        running := hq.head_cons
        live := fun e' he' => by
          rw [← Option.some.inj he']
          exact hlive rfl
        nodup := by
          have hnd := hr.nodup
          unfold Places.all at hnd ⊢
          rw [hx, hrun] at hnd
          simp only [Option.toList_none, addrs_nil, List.append_nil,
            addrs_cons, List.cons_append] at hnd
          have hperm := List.perm_append_singleton e.1
            (addrs l ++ (addrs x.gc ++ addrs x.cache))
          simp only [List.append_assoc] at hperm
          exact hperm.nodup_iff.mpr hnd }

/-- `pmmpthread_worker_add_garbage`. -/
theorem addGarbage_spec {e : Nat × Task} (hr : Rep d x)
    (hrun : x.running = some e) :
    ∃ d', d.addGarbage = some d'
      ∧ Rep d' { x with gc := x.gc ++ [e], running := none }
      ∧ d'.tasksCollected = d.tasksCollected := by
  obtain ⟨n, hn, hv⟩ := hr.live e hrun
  have hmem := running_mem hrun
  have he : e.1 ∉ addrs x.gc := hr.gc_apart (Or.inr (Or.inr hmem))
  obtain ⟨h', q', hp, hg, hsame⟩ := Queue.push_spec hr.gc hn he
  rw [hv] at hg
  have hframe : ∀ c, c ∈ addrs x.queue ∨ c ∈ addrs x.cache →
      h'.get c = d.items.get c := by
    intro c hc
    refine hsame c (fun hce => ?_) (hr.gc_apart (hc.imp_right Or.inl))
    rw [hce] at hc
    rcases hc with hc | hc
    · exact hr.queue_apart (Or.inr (Or.inr hmem)) hc
    · exact hr.cache_apart (Or.inr (Or.inr hmem)) hc
  refine ⟨{ d with items := h', gc := q', running := none }, ?_, ?_, rfl⟩
  · unfold addGarbage
    rw [hr.running, hrun]
    simp only [Option.map_some, Option.bind_some, hp]
  · exact
      { queue := hr.queue.congr fun c hc => hframe c (Or.inl hc)
        gc := hg
        cache := hr.cache.congr fun c hc => hframe c (Or.inr hc)
        running := rfl
        live := fun _ h => by cases h
        nodup := by
          have hnd := hr.nodup
          unfold Places.all at hnd ⊢
          rw [hrun] at hnd
          show (addrs x.queue ++ (addrs (x.gc ++ [e])
            ++ (addrs x.cache ++ []))).Nodup
          refine (List.Perm.nodup_iff ?_).mp hnd
          refine List.Perm.append_left _ ?_
          rw [addrs_append, List.append_assoc, List.append_nil]
          refine List.Perm.append_left _ ?_
          exact List.perm_append_comm }

/-- The end of `pmmpthread_worker_add_garbage`. -/
theorem cacheDone_spec (A : Allocator) (v : Task) (hr : Rep d x) :
    ∃ a d', d.cacheDone A v = some d'
      ∧ Rep d' { x with cache := x.cache ++ [(a, v)] }
      ∧ d'.tasksCollected = d.tasksCollected := by
  obtain ⟨a, h', q', hp, hfresh, hc, hsame⟩ := Queue.pushNew_spec A v hr.cache
  have hall : a ∉ x.all := by
    intro ha
    obtain ⟨n, hn⟩ := hr.mem_live ha
    rw [hfresh] at hn
    cases hn
  have hframe : ∀ c, c ∈ addrs x.queue ∨ c ∈ addrs x.gc
      ∨ c ∈ addrs x.running.toList → h'.get c = d.items.get c := by
    intro c hc
    refine hsame c (fun hca => hall ?_) (hr.cache_apart hc)
    rw [hca] at hc
    refine Places.mem_all.mpr ?_
    rcases hc with hc | hc | hc
    · exact Or.inl hc
    · exact Or.inr (Or.inl hc)
    · exact Or.inr (Or.inr (Or.inr hc))
  refine ⟨a, { d with items := h', doneTasksCache := q' }, ?_, ?_, rfl⟩
  · unfold cacheDone
    rw [hp]
    rfl
  · refine hr.setCache hc hframe ?_
    have hperm : ((addrs x.queue ++ (addrs x.gc ++ addrs x.cache))
        ++ a :: addrs x.running.toList).Perm
        (a :: ((addrs x.queue ++ (addrs x.gc ++ addrs x.cache))
          ++ addrs x.running.toList)) := List.perm_middle
    simp only [List.append_assoc] at hperm
    have hnd := hperm.nodup_iff.mpr
      (List.nodup_cons.mpr ⟨hall, hr.nodup⟩)
    unfold Places.all
    simp only [addrs_append, List.append_assoc]
    exact hnd

/-- A step of the loop of `pmmpthread_worker_collect_tasks`. -/
theorem shiftGc_spec {e : Nat × Task} {l : List (Nat × Task)}
    (hr : Rep d x) (hx : x.gc = e :: l) :
    ∃ n h' q', d.items.get e.1 = some n ∧ n.next = (addrs l).head?
      ∧ Queue.shift d.items d.gc true = some (some e.2, h', q')
      ∧ Rep { d with items := h', gc := q' } { x with gc := l } := by
  have hg := hr.gc
  rw [hx] at hg
  obtain ⟨h', q', hs, hl, -, hsame⟩ := Queue.shift_spec hg true
  have hframe : ∀ c, c ∈ addrs x.queue ∨ c ∈ addrs x.cache
      ∨ c ∈ addrs x.running.toList → h'.get c = d.items.get c := by
    intro c hc
    have hcg := hr.gc_apart hc
    rw [hx, addrs_cons, List.mem_cons, not_or] at hcg
    exact hsame c hcg.1 hcg.2
  refine ⟨_, h', q', hg.linked.1, rfl, hs, ?_⟩
  exact
    { queue := hr.queue.congr fun c hc => hframe c (Or.inl hc)
      gc := hl
      cache := hr.cache.congr fun c hc => hframe c (Or.inr (Or.inl hc))
      running := hr.running
      live := fun e he => by
        show ∃ n, h'.get e.1 = some n ∧ n.value = e.2
        rw [hframe e.1 (Or.inr (Or.inr (running_mem he)))]
        exact hr.live e he
      nodup := by
        refine List.Nodup.sublist ?_ hr.nodup
        unfold Places.all
        rw [hx]
        exact List.Sublist.append_left
          (List.Sublist.append_right (List.sublist_cons_self _ _) _) _ }

/-- How many tasks the collector takes. -/
def accepted (answers : List Bool) (l : List (Nat × Task)) : Nat :=
  min (answers.takeWhile id).length l.length

theorem collectLoop_spec : ∀ (answers : List Bool) {d : WorkerData}
    {x : Places}, Rep d x →
    ∃ d', d.collectLoop answers d.gc.head
        = some ((x.gc.take (accepted answers x.gc)).map Prod.snd, d')
      ∧ Rep d' { x with gc := x.gc.drop (accepted answers x.gc) }
      ∧ d'.tasksCollected = d.tasksCollected := by
  intro answers
  induction answers with
  | nil =>
      intro d x hr
      refine ⟨d, ?_, ?_, rfl⟩
      · unfold collectLoop
        cases d.gc.head <;> rfl
      · simpa [accepted] using hr
  | cons answer answers ih =>
      intro d x hr
      cases hx : x.gc with
      | nil =>
          have hhead := hr.gc.head_eq_none.mpr hx
          refine ⟨d, ?_, ?_, rfl⟩
          · rw [hhead, List.take_nil]
            unfold collectLoop
            rfl
          · rw [List.drop_nil, ← hx]
            exact hr
      | cons e l =>
          have hhead : d.gc.head = some e.1 := by
            rw [hr.gc.head, hx]
            rfl
          cases answer with
          | false =>
              refine ⟨d, ?_, ?_, rfl⟩
              · rw [hhead]
                unfold collectLoop
                rfl
              · show Rep d { x with gc := e :: l }
                rw [← hx]
                exact hr
          | true =>
              obtain ⟨n, h', q', hn, hnext, hs, hr'⟩ := shiftGc_spec hr hx
              obtain ⟨d', hd, hrep, htc⟩ := ih hr'
              have hacc : accepted (true :: answers) (e :: l)
                  = accepted answers l + 1 := by
                simp only [accepted, List.takeWhile_cons, id, if_true,
                  List.length_cons]
                omega
              have hq : q'.head = n.next := by
                rw [hnext]
                exact hr'.gc.head
              refine ⟨d', ?_, ?_, htc⟩
              · rw [hhead]
                unfold collectLoop
                simp only [hn, Option.bind_some, hs]
                rw [← hq, hd, hacc]
                rfl
              · rw [hacc]
                exact hrep

/-- `pmmpthread_worker_collect_tasks`. -/
theorem collectTasks_spec (answers : List Bool) (hr : Rep d x) :
    ∃ d', d.collectTasks answers
        = some ((x.queue.length + (x.gc.length - accepted answers x.gc : Nat)
            + (if x.running.isSome then 1 else 0) : Int),
          (x.gc.take (accepted answers x.gc)).map Prod.snd, d')
      ∧ Rep d' { x with gc := x.gc.drop (accepted answers x.gc) }
      ∧ d'.tasksCollected = d.tasksCollected + accepted answers x.gc := by
  obtain ⟨d', hd, hr', htc⟩ := collectLoop_spec answers hr
  have hle : accepted answers x.gc ≤ x.gc.length := Nat.min_le_right _ _
  have hlen : ((x.gc.take (accepted answers x.gc)).map Prod.snd).length
      = accepted answers x.gc := by
    rw [List.length_map, List.length_take]
    omega
  refine ⟨{ d' with tasksCollected :=
    d'.tasksCollected + accepted answers x.gc }, ?_, ?_, ?_⟩
  · unfold collectTasks
    rw [hd, Option.map_some]
    simp only [hlen, hr'.queue.size, hr'.gc.size, hr'.running,
      List.length_drop, Option.isSome_map]
  · exact { hr' with }
  · show d'.tasksCollected + _ = _
    rw [htc]

/-- The first connection comes off the cache. -/
theorem shiftCache_spec {e : Nat × Task} {l : List (Nat × Task)}
    (hr : Rep d x) (hx : x.cache = e :: l) (free : Bool) :
    ∃ h' q', Queue.shift d.items d.doneTasksCache free
        = some (some e.2, h', q')
      ∧ Rep { d with items := h', doneTasksCache := q' }
        { x with cache := l } := by
  have hc := hr.cache
  rw [hx] at hc
  obtain ⟨h', q', hs, hl, -, hsame⟩ := Queue.shift_spec hc free
  have hframe : ∀ c, c ∈ addrs x.queue ∨ c ∈ addrs x.gc
      ∨ c ∈ addrs x.running.toList → h'.get c = d.items.get c := by
    intro c hc
    have hcc := hr.cache_apart hc
    rw [hx, addrs_cons, List.mem_cons, not_or] at hcc
    exact hsame c hcc.1 hcc.2
  refine ⟨h', q', hs, ?_⟩
  refine hr.setCache hl hframe (List.Nodup.sublist ?_ hr.nodup)
  unfold Places.all
  rw [hx]
  exact List.Sublist.append_left (List.Sublist.append_left
    (List.Sublist.append_right (List.sublist_cons_self _ _) _) _) _

/-- The loop of `pmmpthread_worker_next_task` over the cache. -/
theorem dropCached_spec : ∀ (n : Nat) {d : WorkerData} {x : Places},
    Rep d x → n ≤ x.cache.length →
    ∃ d', d.dropCached n = some ((x.cache.take n).map fun e => some e.2, d')
      ∧ Rep d' { x with cache := x.cache.drop n }
      ∧ d'.tasksCollected = d.tasksCollected := by
  intro n
  induction n with
  | zero => exact fun {d x} hr _ => ⟨d, rfl, hr, rfl⟩
  | succ n ih =>
      intro d x hr hn
      cases hx : x.cache with
      | nil =>
          rw [hx] at hn
          cases hn
      | cons e l =>
          obtain ⟨h', q', hs, hr'⟩ := shiftCache_spec hr hx true
          rw [hx] at hn
          obtain ⟨d', hd, hrep, htc⟩ := ih hr' (Nat.le_of_succ_le_succ hn)
          refine ⟨d', ?_, hrep, htc⟩
          unfold dropCached
          simp only [hs, Option.bind_some, hd, Option.map_some]
          rfl

/-- The handling of `COLLECT_GARBAGE`. -/
theorem handleGarbage_spec (hr : Rep d x)
    (hn : d.tasksCollected ≤ x.cache.length) :
    ∃ d', d.handleGarbage
        = some ((x.cache.take d.tasksCollected).map fun e => some e.2, d')
      ∧ Rep d' { x with cache := x.cache.drop d.tasksCollected }
      ∧ d'.tasksCollected = 0 := by
  obtain ⟨d', hd, hr', -⟩ := dropCached_spec d.tasksCollected hr hn
  refine ⟨{ d' with tasksCollected := 0 }, ?_, { hr' with }, rfl⟩
  unfold handleGarbage
  rw [hd]
  rfl

end WorkerData

end PmmpThread.Model
