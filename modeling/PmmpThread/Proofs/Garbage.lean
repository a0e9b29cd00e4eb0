/-
What the cycle collector is shown of a Worker, and what is left when it is
freed, over every run of its life.

The buffer of `pmmpthread_worker_get_gc_extra` has each task that the
worker still refers to exactly once. Freeing the worker releases the
queued and the done ones, and after the thread's cache is cleaned as well
the only items left are that of a task which was running when the thread
left its loop, and the one that a bailout out of
`pmmpthread_worker_next_task` takes off the cache without freeing it.

The second follows from a count (`lost`): every operation allocates and
frees as many items as it adds to and takes from the queues.
-/
import PmmpThread.Model.Garbage
import PmmpThread.Proofs.Worker

namespace PmmpThread.Model

open Zend Dlist

variable {h h' : Items} {q q' : Dlist} {l : List (Nat × Task)}

-- ============================================================== loops

namespace Queue

/-- The values from an item on, when the list from there is linked. -/
theorem values_linked : ∀ {l : List (Nat × Task)} {p : Option Nat}
    {fuel : Nat}, Linked h p l → l.length ≤ fuel →
    values h fuel (addrs l).head? = some (vals l)
  | [], _, fuel, _, _ => by
      cases fuel <;> rfl
  | e :: l, _, 0, _, hle => by
      simp at hle
  | e :: l, p, fuel + 1, hl, hle => by
      have ih := values_linked hl.2 (Nat.le_of_succ_le_succ hle)
      simp only [addrs_cons, List.head?_cons, values, hl.1,
        Option.bind_some, ih, Option.map_some, vals_cons]

/-- A walk over a queue reads its values, -/
theorem values_holds {fuel : Nat} (hl : Holds h q l)
    (hle : l.length ≤ fuel) : values h fuel q.head = some (vals l) := by
  rw [hl.head]
  exact values_linked hl.linked hle

/-- Cleaning a linked list frees its items and no other. -/
theorem clean_linked : ∀ {l : List (Nat × Task)} {p : Option Nat}
    {h : Items} {fuel : Nat}, Linked h p l → (addrs l).Nodup →
    l.length ≤ fuel →
    ∃ h', clean h fuel (addrs l).head? = some (vals l, h')
      ∧ (∀ a, h'.get a = if a ∈ addrs l then none else h.get a)
      ∧ itemCount h' + l.length = itemCount h
  | [], _, h, fuel, _, _, _ => by
      refine ⟨h, ?_, fun a => by simp, rfl⟩
      cases fuel <;> rfl
  | e :: l, _, _, 0, _, _, hle => by
      simp at hle
  | e :: l, p, h, fuel + 1, hl, hnd, hle => by
      obtain ⟨hne, hnd⟩ := List.nodup_cons.mp hnd
      have hrest : Linked (h.free e.1) (some e.1) l := by
        refine hl.2.congr fun a ha => ?_
        have hae : a ≠ e.1 := fun hae => hne (hae ▸ ha)
        rw [Heap.get_free, if_neg hae]
      obtain ⟨h', hclean, hget, hcount⟩ :=
        clean_linked hrest hnd (Nat.le_of_succ_le_succ hle)
      refine ⟨h', ?_, fun a => ?_, ?_⟩
      · simp only [addrs_cons, List.head?_cons, clean, hl.1,
          Option.bind_some, hclean, Option.map_some, vals_cons]
      · rw [hget, Heap.get_free]
        by_cases hae : a = e.1
        · simp [hae]
        · simp [hae]
      · have hfree := Heap.count_free (fun _ => true) h e.1
        rw [hl.1] at hfree
        simp only [Option.any_some, if_true] at hfree
        unfold itemCount at hcount ⊢
        rw [List.length_cons]
        omega

/-- and `pmmpthread_queue_clean` releases them and frees the items, no
others. -/
theorem clean_holds (hl : Holds h q l) (fuel : Nat)
    (hle : l.length ≤ fuel) :
    ∃ h', clean h fuel q.head = some (vals l, h')
      ∧ (∀ a, h'.get a = if a ∈ addrs l then none else h.get a)
      ∧ itemCount h' + l.length = itemCount h := by
  rw [hl.head]
  exact clean_linked hl.linked hl.nodup hle

-- =========================================================== counting

/-- The same items are allocated. -/
structure SameItems (h h' : Items) : Prop where
  count : itemCount h' = itemCount h
  live : ∀ c, (h'.get c).isSome = (h.get c).isSome

theorem SameItems.trans {h₁ h₂ h₃ : Items} (h : SameItems h₁ h₂)
    (h' : SameItems h₂ h₃) : SameItems h₁ h₃ :=
  ⟨h'.count.trans h.count, fun c => (h'.live c).trans (h.live c)⟩

/-- A change of links frees no item and makes none. -/
theorem assign_same {a : Nat} {f : Node Task → Node Task}
    (hs : assign h a f = some h') : SameItems h h' := by
  obtain ⟨n, -, rfl⟩ := Option.map_eq_some_iff.mp hs
  exact ⟨Heap.count_modify_of_eq _ fun _ => rfl,
    fun c => Heap.get_modify_isSome h a c f⟩

/-- Each queue operation with its items and its size: `push` links one, -/
theorem push_count {a : Nat} (hs : push h q a = some (h', q')) :
    SameItems h h' ∧ q'.size = q.size + 1 := by
  unfold push at hs
  split at hs
  · obtain ⟨h₁, h₁s, hr⟩ := Option.map_eq_some_iff.mp hs
    cases hr
    exact ⟨assign_same h₁s, rfl⟩
  · obtain ⟨h₁, h₁s, hs⟩ := Option.bind_eq_some_iff.mp hs
    obtain ⟨h₂, h₂s, hr⟩ := Option.map_eq_some_iff.mp hs
    cases hr
    exact ⟨(assign_same h₁s).trans (assign_same h₂s), rfl⟩

/-- `pushNew` makes it first, -/
theorem pushNew_count {A : Allocator} {v : Task}
    (hs : pushNew A h q v = some (h', q')) :
    itemCount h' = itemCount h + 1 ∧ q'.size = q.size + 1 := by
  obtain ⟨hsame, hsize⟩ := push_count hs
  refine ⟨hsame.count.trans ?_, hsize⟩
  exact Heap.count_place _ _ (h.get_next A)

/-- and `unlink` takes one out and leaves it to the caller. -/
theorem unlink_count {a : Nat} {n : Node Task}
    (hs : unlink h q a n = some (h', q')) :
    SameItems h h' ∧ q'.size = q.size - 1 := by
  unfold unlink at hs
  split at hs
  · cases hs
    exact ⟨⟨rfl, fun _ => rfl⟩, rfl⟩
  · split at hs
    · obtain ⟨b, -, hs⟩ := Option.bind_eq_some_iff.mp hs
      obtain ⟨h₁, h₁s, hr⟩ := Option.map_eq_some_iff.mp hs
      cases hr
      exact ⟨assign_same h₁s, rfl⟩
    · split at hs
      · obtain ⟨b, -, hs⟩ := Option.bind_eq_some_iff.mp hs
        obtain ⟨h₁, h₁s, hr⟩ := Option.map_eq_some_iff.mp hs
        cases hr
        exact ⟨assign_same h₁s, rfl⟩
      · obtain ⟨b, -, hs⟩ := Option.bind_eq_some_iff.mp hs
        obtain ⟨c, -, hs⟩ := Option.bind_eq_some_iff.mp hs
        obtain ⟨h₁, h₁s, hs⟩ := Option.bind_eq_some_iff.mp hs
        obtain ⟨h₂, h₂s, hr⟩ := Option.map_eq_some_iff.mp hs
        cases hr
        exact ⟨(assign_same h₁s).trans (assign_same h₂s), rfl⟩

/-- `pmmpthread_queue_shift` takes an item where there is one, and frees it
when it is asked to. -/
theorem shift_count {free : Bool} {v : Option Task}
    (hs : shift h q free = some (v, h', q')) :
    itemCount h' + (if free && q.head.isSome then 1 else 0) = itemCount h
      ∧ q'.size + (if q.head.isSome then 1 else 0) = q.size
      ∧ v.isSome = q.head.isSome := by
  unfold shift remove at hs
  cases hq : q.head with
  | none =>
      rw [hq] at hs
      cases hs
      simp
  | some a =>
      rw [hq] at hs
      obtain ⟨n, hn, hs⟩ := Option.bind_eq_some_iff.mp hs
      obtain ⟨⟨h₁, q₁⟩, hu, hr⟩ := Option.map_eq_some_iff.mp hs
      cases hr
      obtain ⟨hsame, hsize⟩ := unlink_count hu
      refine ⟨?_, by simp [hsize], rfl⟩
      cases free with
      | false => simpa using hsame.count
      | true =>
          have hlive : (h₁.get a).isSome = true := by
            rw [hsame.live, hn]
            rfl
          obtain ⟨m, hm⟩ := Option.isSome_iff_exists.mp hlive
          have hfree := Heap.count_free (fun _ => true) h₁ a
          rw [hm] at hfree
          exact hfree.trans hsame.count

/-- An item that is shifted and freed is neither allocated nor in the queue
any more. -/
theorem shift_free_count {v : Option Task}
    (hs : shift h q true = some (v, h', q')) :
    (itemCount h' : Int) - q'.size = itemCount h - q.size := by
  obtain ⟨hcount, hsize, -⟩ := shift_count hs
  cases hq : q.head with
  | none =>
      simp only [hq, Option.isSome_none, Bool.and_false, Bool.false_eq_true,
        if_false] at hcount hsize
      omega
  | some a =>
      simp only [hq, Option.isSome_some, Bool.and_self, if_true]
        at hcount hsize
      omega

/-- One that is only shifted is still allocated. -/
theorem shift_keep_count {v : Option Task}
    (hs : shift h q false = some (v, h', q')) :
    itemCount h' = itemCount h
      ∧ q'.size + (if q.head.isSome then 1 else 0) = q.size := by
  obtain ⟨hcount, hsize, -⟩ := shift_count hs
  simp only [Bool.false_and, Bool.false_eq_true, if_false] at hcount
  exact ⟨hcount, hsize⟩

end Queue

namespace WorkerData

variable {d d' : WorkerData}

/-- `lost` counts the items that are allocated and in no place where the
data has them; no operation changes it. -/
theorem addTask_lost {A : Allocator} {v : Task} {b : Bool}
    (hs : d.addTask A v = some (b, d')) : d'.lost = d.lost := by
  obtain ⟨⟨h₁, q₁⟩, hp, hr⟩ := Option.map_eq_some_iff.mp hs
  cases hr
  obtain ⟨hcount, hsize⟩ := Queue.pushNew_count hp
  simp only [lost, hcount, hsize]
  omega

theorem dequeueTask_lost {v : Option Task}
    (hs : d.dequeueTask = some (v, d')) : d'.lost = d.lost := by
  obtain ⟨⟨w, h₁, q₁⟩, hp, hr⟩ := Option.map_eq_some_iff.mp hs
  cases hr
  have hcount := Queue.shift_free_count hp
  simp only [lost]
  omega

theorem collectLoop_lost : ∀ (answers : List Bool) {d d' : WorkerData}
    {item : Option Nat} {l : List Task},
    d.collectLoop answers item = some (l, d') → d'.lost = d.lost
  | [], d, d', item, l, hs => by
      cases item <;> cases hs <;> rfl
  | false :: _, d, d', item, l, hs => by
      cases item <;> cases hs <;> rfl
  | true :: answers, d, d', none, l, hs => by
      cases hs
      rfl
  | true :: answers, d, d', some a, l, hs => by
      simp only [collectLoop] at hs
      obtain ⟨n, -, hs⟩ := Option.bind_eq_some_iff.mp hs
      obtain ⟨⟨v, h₁, q₁⟩, hp, hs⟩ := Option.bind_eq_some_iff.mp hs
      obtain ⟨⟨l', d₁⟩, hl, hr⟩ := Option.map_eq_some_iff.mp hs
      cases hr
      have ih := collectLoop_lost answers hl
      have hcount := Queue.shift_free_count hp
      simp only [lost] at ih ⊢
      omega

theorem collectTasks_lost {answers : List Bool} {n : Int} {l : List Task}
    (hs : d.collectTasks answers = some (n, l, d')) : d'.lost = d.lost := by
  obtain ⟨⟨l', d₁⟩, hl, hr⟩ := Option.map_eq_some_iff.mp hs
  cases hr
  have hlost := collectLoop_lost answers hl
  exact hlost

theorem dropCached_lost : ∀ (count : Nat) {d d' : WorkerData}
    {l : List (Option Task)}, d.dropCached count = some (l, d') →
    d'.lost = d.lost
  | 0, d, d', l, hs => by
      cases hs
      rfl
  | count + 1, d, d', l, hs => by
      simp only [dropCached] at hs
      obtain ⟨⟨v, h₁, q₁⟩, hp, hs⟩ := Option.bind_eq_some_iff.mp hs
      obtain ⟨⟨l', d₁⟩, hl, hr⟩ := Option.map_eq_some_iff.mp hs
      cases hr
      have ih := dropCached_lost count hl
      have hcount := Queue.shift_free_count hp
      simp only [lost] at ih ⊢
      omega

theorem handleGarbage_lost {l : List (Option Task)}
    (hs : d.handleGarbage = some (l, d')) : d'.lost = d.lost := by
  obtain ⟨⟨l', d₁⟩, hl, hr⟩ := Option.map_eq_some_iff.mp hs
  cases hr
  have hlost := dropCached_lost _ hl
  exact hlost

/-- Handling garbage leaves what the thread is running. -/
theorem dropCached_running : ∀ (count : Nat) {d d' : WorkerData}
    {l : List (Option Task)}, d.dropCached count = some (l, d') →
    d'.running = d.running
  | 0, d, d', l, hs => by
      cases hs
      rfl
  | count + 1, d, d', l, hs => by
      simp only [dropCached] at hs
      obtain ⟨⟨v, h₁, q₁⟩, hp, hs⟩ := Option.bind_eq_some_iff.mp hs
      obtain ⟨⟨l', d₁⟩, hl, hr⟩ := Option.map_eq_some_iff.mp hs
      cases hr
      have ih := dropCached_running count hl
      exact ih

/-- The item of the task that is taken stays, for the thread. -/
theorem takeTask_lost {v : Option Task} (hrun : d.running = none)
    (hs : d.takeTask = some (v, d')) : d'.lost = d.lost := by
  obtain ⟨⟨w, h₁, q₁⟩, hp, hr⟩ := Option.map_eq_some_iff.mp hs
  cases hr
  obtain ⟨hcount, hsize⟩ := Queue.shift_keep_count hp
  simp only [lost, hrun, hcount, Option.isSome_none, Bool.false_eq_true,
    if_false]
  cases hq : d.queue.head with
  | none =>
      simp only [hq, Option.isSome_none, Bool.false_eq_true, if_false]
        at hsize ⊢
      omega
  | some a =>
      simp only [hq, Option.isSome_some, if_true] at hsize ⊢
      omega

theorem addGarbage_lost (hs : d.addGarbage = some d') :
    d'.lost = d.lost := by
  obtain ⟨a, ha, hs⟩ := Option.bind_eq_some_iff.mp hs
  obtain ⟨⟨h₁, q₁⟩, hp, hr⟩ := Option.map_eq_some_iff.mp hs
  cases hr
  obtain ⟨hsame, hsize⟩ := Queue.push_count hp
  simp only [lost, ha, hsame.count, hsize, Option.isSome_none,
    Option.isSome_some, Bool.false_eq_true, if_false, if_true]
  omega

theorem cacheDone_lost {A : Allocator} {v : Task}
    (hs : d.cacheDone A v = some d') : d'.lost = d.lost := by
  obtain ⟨⟨h₁, q₁⟩, hp, hr⟩ := Option.map_eq_some_iff.mp hs
  cases hr
  obtain ⟨hcount, hsize⟩ := Queue.pushNew_count hp
  simp only [lost, hcount, hsize]
  omega

end WorkerData

namespace Life

variable {A : Allocator} {s s' : Life} {x : Places}

-- ====================================================== the invariant

/-- The one item that is not accounted for is that of the connection whose
destructor left `pmmpthread_worker_next_task`, with the monitor held. -/
structure Accounts (s : Life) : Prop where
  lost : s.data.lost = if s.held then 1 else 0
  held : s.held = true → s.child.inTry = false

/-- A step that leaves the data and the monitor alone. -/
theorem Accounts.same (ha : Accounts s) (hdata : s'.data.lost = s.data.lost)
    (hheld : s'.held = s.held)
    (hchild : s.child.inTry = false → s'.child.inTry = false) :
    Accounts s' := by
  refine ⟨?_, fun h => hchild (ha.held (hheld ▸ h))⟩
  rw [hdata, hheld]
  exact ha.lost

theorem accounts_init (worker : Bool) : Accounts (init worker) where
  lost := rfl
  held h := by cases h

theorem Accounts.notifyAll (ha : Accounts s) : Accounts s.notifyAll := by
  rw [notifyAll_eq]
  exact ha.same rfl rfl (by simp)

/-- A thread that is in its loop does not hold the monitor. -/
theorem Accounts.free (ha : Accounts s) (hc : s.child.inTry = true) :
    s.held = false := by
  cases hh : s.held with
  | false => rfl
  | true =>
      rw [ha.held hh] at hc
      cases hc

/-- A step of the thread in its loop that loses no item. -/
theorem Accounts.going (ha : Accounts s) (hc : s.child.inTry = true)
    (hdata : s'.data.lost = s.data.lost) (hheld : s'.held = s.held) :
    Accounts s' := by
  refine ha.same hdata hheld fun h => ?_
  rw [hc] at h
  cases h

/-- Taking the next task moves an item from the queue to the running one,
or the thread leaves the loop. -/
theorem Accounts.nextTask (ha : Accounts s) (hi : WorkerInv s x)
    (hc : s.child = .nextTask) (h : s.nextTask = some s') :
    Accounts s' := by
  have htry : s.child.inTry = true := by
    rw [hc]
    rfl
  have hrun : s.data.running = none := by
    rw [hi.rep.running, hi.not_running htry (by rw [hc]; rfl)]
    rfl
  obtain ⟨u, hu, h⟩ := Option.bind_eq_some_iff.mp h
  -- the handling of COLLECT_GARBAGE frees what it takes off the cache
  obtain ⟨hlost, hheld, hrun⟩ : u.data.lost = s.data.lost
      ∧ u.held = s.held ∧ u.data.running = none := by
    split at hu
    · obtain ⟨r, hr, rfl⟩ := Option.map_eq_some_iff.mp hu
      rw [monitorRemove_eq]
      refine ⟨WorkerData.handleGarbage_lost hr, rfl, ?_⟩
      obtain ⟨r', hr', rfl⟩ := Option.map_eq_some_iff.mp hr
      exact (WorkerData.dropCached_running _ hr').trans hrun
    · cases hu
      exact ⟨rfl, rfl, hrun⟩
  split at h
  · split at h
    · cases h
      exact ha.going htry hlost hheld
    · cases h
      exact ha.going htry hlost hheld
  · obtain ⟨⟨v, d⟩, ht, h⟩ := Option.bind_eq_some_iff.mp h
    obtain ⟨w, -, rfl⟩ := Option.map_eq_some_iff.mp h
    exact ha.going htry ((WorkerData.takeTask_lost hrun ht).trans hlost)
      hheld

/-- A step of the thread, -/
theorem Accounts.child {o : Outcome} (ha : Accounts s) (hi : WorkerInv s x)
    (h : s.childStep A o = some s') : Accounts s' := by
  unfold childStep at h
  cases hc : s.child with
  | absent | waiting _ | exited =>
      rw [hc] at h
      cases h
  | nextTask =>
      rw [hc] at h
      exact ha.nextTask hi hc h
  | garbage v ok =>
      rw [hc] at h
      obtain ⟨d, hd, rfl⟩ := Option.map_eq_some_iff.mp h
      rw [notifyAll_eq]
      exact ha.going (by rw [hc]; rfl) (WorkerData.addGarbage_lost hd) rfl
  | cachePush v ok =>
      rw [hc] at h
      dsimp only at h
      split at h
      · cases h
        exact ha.going (by rw [hc]; rfl) rfl rfl
      · obtain ⟨d, hd, rfl⟩ := Option.map_eq_some_iff.mp h
        exact ha.going (by rw [hc]; rfl) (WorkerData.cacheDone_lost hd) rfl
  | runAdd | runError | taskError _ =>
      rw [hc] at h
      cases h
      rw [monitorAdd_eq]
      exact ha.going (by rw [hc]; rfl) rfl rfl
  | runRemove ok =>
      rw [hc] at h
      cases h
      rw [monitorRemove_eq]
      exact ha.going (by rw [hc]; rfl) rfl rfl
  | startup | connectThis | runCheck | runBody | runDrop _ | connectTask _
  | runTask _ | dropConnection _ =>
      rw [hc] at h
      cases h
      exact ha.going (by rw [hc]; rfl) rfl rfl
  | setAwaitJoin =>
      rw [hc] at h
      cases h
      rw [monitorAdd_eq]
      exact ha.same rfl rfl fun _ => rfl
  | awaitExit =>
      rw [hc] at h
      cases h
      split
      · exact ha.same rfl rfl fun _ => rfl
      · exact ha
  | releaseThis =>
      rw [hc] at h
      cases h
      refine ha.same rfl rfl fun _ => ?_
      show (if o = Outcome.bail then ChildPc.shutdown else .cleanCache).inTry
        = false
      split <;> rfl
  | shutdownFunctions | cleanCache | shutdown =>
      rw [hc] at h
      cases h
      exact ha.same rfl rfl fun _ => rfl

theorem Accounts.addTask {object : Addr} (ha : Accounts s)
    (h : s.addTask A object = some s') : Accounts s' := by
  obtain ⟨⟨b, d⟩, hd, rfl⟩ := Option.map_eq_some_iff.mp h
  have hadd := WorkerData.addTask_lost hd
  cases b with
  | true =>
      simp only [if_true, notifyAll_eq]
      exact ha.same hadd rfl (by simp)
  | false => exact ha.same hadd rfl id

/-- a step of its creator, -/
theorem Accounts.creator (ha : Accounts s)
    (h : s.creatorStep A = some s') : Accounts s' := by
  unfold creatorStep at h
  cases hc : s.creator with
  | user | creating _ =>
      rw [hc] at h
      cases h
  | starting _ | joinStarted | setExit =>
      rw [hc] at h
      cases h
      rw [monitorAdd_eq]
      exact ha.same rfl rfl (by simp)
  | createFailed _ =>
      rw [hc] at h
      cases h
      rw [monitorRemove_eq]
      exact ha.same rfl rfl (by simp)
  | awaitReady | awaitJoin =>
      rw [hc] at h
      cases h
      split
      · exact ha.same rfl rfl id
      · exact ha
  | joinBegin | joinChecked | syncThread | syncTasks | syncGlobals
  | pthreadJoin | dtorStarted =>
      rw [hc] at h
      cases h
      exact ha.same rfl rfl id
  | joining =>
      rw [hc] at h
      dsimp only at h
      split at h
      · cases h
        exact ha.same rfl rfl id
      · cases h
  | stacking object =>
      rw [hc] at h
      obtain ⟨u, hu, rfl⟩ := Option.map_eq_some_iff.mp h
      exact (ha.addTask hu).same rfl rfl id

/-- The cache is longer than what is dropped, so an item is taken off it. -/
theorem Accounts.bailInDrop {i : Nat} (ha : Accounts s)
    (hi : WorkerInv s x) (h : s.bailInDrop i = some s') :
    Accounts s' := by
  obtain ⟨⟨hc, -, hlt⟩, h⟩ := step_checked h
  have hle := hi.cache_length hc
  obtain ⟨d, hd, hrep, -⟩ := WorkerData.dropCached_spec i hi.rep (by omega)
  obtain ⟨r, hr, h⟩ := Option.bind_eq_some_iff.mp h
  obtain ⟨⟨v, h₁, q₁⟩, hs, rfl⟩ := Option.map_eq_some_iff.mp h
  have hfree := ha.lost
  rw [ha.free (by rw [hc]; rfl)] at hfree
  have hdrop := WorkerData.dropCached_lost i hr
  rw [hd] at hr
  cases hr
  have hhead : d.doneTasksCache.head.isSome = true := by
    rw [hrep.cache.head, addrs, List.head?_map, Option.isSome_map,
      List.head?_drop, List.getElem?_eq_getElem (by omega)]
    rfl
  obtain ⟨hcount, hsize⟩ := Queue.shift_keep_count hs
  rw [hhead] at hsize
  refine ⟨?_, fun _ => rfl⟩
  simp only [WorkerData.lost, hcount, Bool.false_eq_true, if_false, if_true]
    at hfree hdrop hsize ⊢
  omega

/-- and any step. -/
theorem Accounts.step {act : LifeAct} (ha : Accounts s) (hj : JoinInv s)
    (hi : WorkerInv s x) (h : step A s act = some s') : Accounts s' := by
  cases act with
  | start | join | stack object =>
      obtain ⟨-, rfl⟩ := step_guarded h
      split
      · exact ha
      · exact ha.same rfl rfl id
  | unstack =>
      obtain ⟨-, h⟩ := step_checked h
      obtain ⟨r, hr, rfl⟩ := Option.map_eq_some_iff.mp h
      exact ha.same (WorkerData.dequeueTask_lost hr) rfl id
  | collect answers =>
      obtain ⟨-, h⟩ := step_checked h
      obtain ⟨⟨n, u⟩, hu, rfl⟩ := Option.map_eq_some_iff.mp h
      obtain ⟨⟨n', l, d⟩, hd, hr⟩ := Option.map_eq_some_iff.mp hu
      cases hr
      have hlost := WorkerData.collectTasks_lost hd
      split
      · exact ha.same hlost rfl id
      · rw [monitorAdd_eq]
        exact ha.same hlost rfl (by simp)
  | destruct =>
      obtain ⟨-, rfl⟩ := step_guarded h
      split
      · exact ha.same rfl rfl id
      · exact ha.same rfl rfl id
  | dtorReturn =>
      obtain ⟨-, rfl⟩ := step_guarded h
      exact ha.same rfl rfl id
  | create ok =>
      obtain ⟨before, hc, rfl⟩ := step_create h
      have hcall := hj.call
      rw [hc] at hcall
      split
      · exact ha.going (by rw [hj.absent hcall.1]; rfl) rfl rfl
      · exact ha.same rfl rfl id
  | creator =>
      obtain ⟨-, h⟩ := step_checked h
      exact ha.creator h
  | creatorBail =>
      obtain ⟨-, rfl⟩ := step_guarded h
      exact ha.same rfl rfl id
  | child o => exact ha.child hi h
  | bailInDrop i => exact ha.bailInDrop hi h
  | wake =>
      obtain ⟨n, hc, rfl⟩ := step_wake h
      exact ha.going (by rw [hc]; rfl) rfl rfl
  | notify reaches =>
      obtain rfl := Option.some.inj h
      split
      · exact ha.notifyAll
      · exact ha

/-- By induction on the run, together with `WorkerInv` and `JoinInv`. -/
theorem Reachable.accounts (h : Reachable A s) :
    (∃ x, WorkerInv s x) ∧ Accounts s := by
  have hall : JoinInv s ∧ (∃ x, WorkerInv s x) ∧ Accounts s := by
    refine Reachable.induct
      (I := fun s => JoinInv s ∧ (∃ x, WorkerInv s x) ∧ Accounts s)
      (fun worker => ?_) (fun u act u' hu hs => ?_) h
    · exact ⟨joinInv_init worker, ⟨_, workerInv_init worker⟩,
        accounts_init worker⟩
    · obtain ⟨hj, ⟨x, hi⟩, ha⟩ := hu
      exact ⟨hj.step hs, hi.step hj hs, ha.step hj hi hs⟩
  exact hall.2

/-- How many items there are. -/
theorem Accounts.itemCount_eq (ha : Accounts s) (hr : Rep s.data x) :
    itemCount s.data.items = x.queue.length + x.gc.length + x.cache.length
      + x.running.toList.length + if s.held then 1 else 0 := by
  have hlost := ha.lost
  have hq := hr.queue.size
  have hg := hr.gc.size
  have hc := hr.cache.size
  have hrun : (if s.data.running.isSome then (1 : Int) else 0)
      = x.running.toList.length := by
    rw [hr.running]
    cases x.running <;> rfl
  unfold WorkerData.lost at hlost
  rw [hrun] at hlost
  split <;> rename_i hh <;> simp only [hh, if_true, Bool.false_eq_true,
    if_false] at hlost <;> omega

-- ============================================================ results

/-- The value that is read from the running item is the one the ghost state
has. -/
theorem runningValue_eq (hr : Rep s.data x) :
    s.data.runningValue = some (vals x.running.toList) := by
  unfold WorkerData.runningValue
  rw [hr.running]
  cases hx : x.running with
  | none => rfl
  | some e =>
      obtain ⟨n, hn, hv⟩ := hr.live e hx
      simp only [Option.map_some, hn, hv]
      rfl

/-- The collector is shown each task that the worker still refers to, once:
those of all that were inserted which were neither unstacked nor
collected. -/
theorem gc_buffer_exact (A : Allocator) (s : Life) (h : Reachable A s)
    (fuel : Nat) (hfuel : itemCount s.data.items ≤ fuel) :
    ∃ buffer, s.data.getGcExtra fuel = some buffer ∧ buffer.Nodup
      ∧ (s.unstacked ++ (s.collected ++ buffer)).Perm s.inserted := by
  obtain ⟨⟨x, hi⟩, ha⟩ := h.accounts
  have hcount := ha.itemCount_eq hi.rep
  have hperm : (s.unstacked ++ (s.collected ++ (vals x.queue
      ++ (vals x.running.toList ++ vals x.gc)))).Perm s.inserted := by
    refine List.Perm.trans ?_ hi.perm
    refine List.Perm.append_left _ (List.Perm.append_left _ ?_)
    refine List.perm_append_comm.trans (List.Perm.append_right _ ?_)
    exact List.perm_append_comm
  refine ⟨vals x.queue ++ (vals x.running.toList ++ vals x.gc), ?_, ?_,
    hperm⟩
  · unfold WorkerData.getGcExtra
    rw [Queue.values_holds hi.rep.queue (by omega), runningValue_eq hi.rep,
      Queue.values_holds hi.rep.gc (by omega)]
    rfl
  · have hnd := hperm.nodup_iff.mpr hi.nodup
    exact (List.nodup_append.mp (List.nodup_append.mp hnd).2.1).2.1

/-- Two tasks are stacked; the first is done when the collector runs. -/
def oneDone : List LifeAct :=
  [.stack 7, .creator, .stack 8, .creator, .start, .creator, .create true,
    .child .ok, .creator]
    ++ List.replicate 12 (.child .ok)

theorem gc_buffer_exact_oneDone : ∃ s buffer,
    run .bump (init true) oneDone = some s
      ∧ s.data.getGcExtra 4 = some buffer ∧ buffer = [⟨8, 1⟩, ⟨7, 0⟩]
      ∧ (s.unstacked ++ (s.collected ++ buffer)).Perm s.inserted := by
  obtain ⟨s, hs, hcount, hbuffer⟩ : ∃ s,
      run .bump (init true) oneDone = some s
        ∧ itemCount s.data.items ≤ 4
        ∧ s.data.getGcExtra 4 = some [⟨8, 1⟩, ⟨7, 0⟩] :=
    ⟨_, rfl, by decide, rfl⟩
  obtain ⟨buffer, hb, -, hperm⟩ :=
    gc_buffer_exact .bump s ⟨true, oneDone, hs⟩ 4 hcount
  exact ⟨s, buffer, hs, hb, Option.some.inj (hb.symm.trans hbuffer), hperm⟩

/-- The two queues are released, one after the other, without a look at an
item that is gone. -/
theorem dataFree_eq (hr : Rep s.data x) (fuel : Nat)
    (hq : x.queue.length ≤ fuel) (hg : x.gc.length ≤ fuel) :
    ∃ left, s.data.dataFree fuel
        = some (vals x.queue ++ vals x.gc, s.data.running.isNone, left)
      ∧ (∀ a, left.get a = if a ∈ addrs x.gc ∨ a ∈ addrs x.queue then none
        else s.data.items.get a)
      ∧ itemCount left + x.gc.length + x.queue.length
        = itemCount s.data.items := by
  obtain ⟨h₁, hc₁, hget₁, hn₁⟩ := Queue.clean_holds hr.queue fuel hq
  have hgc : Holds h₁ s.data.gc x.gc := by
    refine hr.gc.congr fun a ha => ?_
    rw [hget₁, if_neg fun hmem => hr.queue_apart (Or.inl ha) hmem]
  obtain ⟨h₂, hc₂, hget₂, hn₂⟩ := Queue.clean_holds hgc fuel hg
  refine ⟨h₂, ?_, fun a => ?_, by omega⟩
  · unfold WorkerData.dataFree
    rw [hc₁, Option.bind_some, hc₂, Option.map_some]
  · rw [hget₂, hget₁]
    by_cases ha : a ∈ addrs x.gc
    · simp [ha]
    · simp [ha]

/-- When the object is freed, with a monitor that nobody left locked, and
the thread has cleaned its cache, each task that the worker still referred
to has been released once, except one that was running, and no item is
left but that one's. -/
theorem data_free_releases (A : Allocator) (s : Life) (h : Reachable A s)
    (hheld : s.held = false) (fuel : Nat)
    (hfuel : itemCount s.data.items ≤ fuel) :
    ∃ released left running dropped left',
      s.dataFree fuel = some (released, s.data.running.isNone, left)
      ∧ s.data.cleanCache left fuel = some (dropped, left')
      ∧ s.data.runningValue = some running
      ∧ (s.unstacked ++ (s.collected ++ (released ++ running))).Perm
        s.inserted
      ∧ itemCount left' = if s.data.running.isSome then 1 else 0 := by
  obtain ⟨⟨x, hi⟩, ha⟩ := h.accounts
  have hcount := ha.itemCount_eq hi.rep
  simp only [hheld, Bool.false_eq_true, if_false] at hcount
  obtain ⟨left, hfree, hget, hleft⟩ :=
    dataFree_eq hi.rep fuel (by omega) (by omega)
  have hcache : Holds left s.data.doneTasksCache x.cache := by
    refine hi.rep.cache.congr fun a ha => ?_
    rw [hget, if_neg]
    rintro (hmem | hmem)
    · exact hi.rep.gc_apart (Or.inr (Or.inl ha)) hmem
    · exact hi.rep.queue_apart (Or.inr (Or.inl ha)) hmem
  obtain ⟨left', hclean, -, hleft'⟩ :=
    Queue.clean_holds hcache fuel (by omega)
  refine ⟨vals x.queue ++ vals x.gc, left, _, _, left', ?_, hclean,
    runningValue_eq hi.rep, ?_, ?_⟩
  · unfold Life.dataFree
    rw [hheld]
    exact hfree
  · refine List.Perm.trans ?_ hi.perm
    refine List.Perm.append_left _ (List.Perm.append_left _ ?_)
    rw [List.append_assoc]
    exact List.perm_append_comm.trans
      (List.Perm.of_eq (by rw [Places.line, Places.taken]))
  · have hrun : (if s.data.running.isSome then 1 else 0)
        = x.running.toList.length := by
      rw [hi.rep.running]
      cases x.running <;> rfl
    rw [hrun]
    omega

theorem data_free_releases_oneDone : ∃ s released left running dropped left',
    run .bump (init true) oneDone = some s
      ∧ s.dataFree 4 = some (released, true, left)
      ∧ released = [⟨8, 1⟩, ⟨7, 0⟩]
      ∧ s.data.cleanCache left 4 = some (dropped, left')
      ∧ (s.unstacked ++ (s.collected ++ (released ++ running))).Perm
        s.inserted
      ∧ itemCount left' = 0 := by
  obtain ⟨s, hs, hcount, hrun, hheld, hfirst⟩ : ∃ s,
      run .bump (init true) oneDone = some s
        ∧ itemCount s.data.items ≤ 4 ∧ s.data.running = none
        ∧ s.held = false
        ∧ (s.dataFree 4).map Prod.fst = some [⟨8, 1⟩, ⟨7, 0⟩] :=
    ⟨_, rfl, by decide, rfl, rfl, rfl⟩
  obtain ⟨released, left, running, dropped, left', hfree, hclean, -, hperm,
    hleft⟩ := data_free_releases .bump s ⟨true, oneDone, hs⟩ hheld 4 hcount
  rw [hfree] at hfirst
  rw [hrun] at hfree hleft
  exact ⟨s, released, left, running, dropped, left', hs, hfree,
    Option.some.inj hfirst, hclean, hperm, hleft⟩

end Life

end PmmpThread.Model
