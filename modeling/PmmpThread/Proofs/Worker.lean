/-
What becomes of the tasks of a Worker, over every run of its creator and
its thread.

# The invariant

`WorkerInv` relates the histories of the tasks to the places they are in.
The thread's position says which task is marked as running, which one is
in the gc queue but not yet in the thread's own cache, and whether all
tasks before were run; these are functions of the position
(`ChildPc.current`, `uncached`, `justRan`, `clean`), so that a step that
moves no task only has to say that they stay the same
(`WorkerInv.move`).

# After the loop

A bailout leaves the loop with a task marked as running; from then on
the position says nothing about it. `ChildPc.inTry` marks the positions
before that.
-/
import PmmpThread.Proofs.Queue
import PmmpThread.Proofs.Join

namespace PmmpThread.Model

open Zend

-- ==================================================== thread positions

namespace ChildPc

/-- Before the end of the `zend_try` of `pmmpthread_routine`. -/
def inTry : ChildPc → Bool
  | .shutdownFunctions | .setAwaitJoin | .awaitExit | .releaseThis
  | .cleanCache | .shutdown | .exited => false
  | _ => true

/-- The task that is being handled and marked as running. -/
def current : ChildPc → Option Task
  | .connectTask v | .runTask v | .taskError v | .garbage v _ => some v
  | _ => none

/-- The task that is in the gc queue but not in the cache. -/
def uncached : ChildPc → List Task
  | .cachePush v _ => [v]
  | _ => []

/-- The task that was run and is not in the gc queue yet. -/
def justRan : ChildPc → List Task
  | .garbage v true => [v]
  | _ => []

/-- Every task so far was run. -/
def clean : ChildPc → Bool
  | .taskError _ | .garbage _ false | .cachePush _ false
  | .dropConnection false => false
  | c => c.inTry

@[simp] theorem inTry_notified (c : ChildPc) :
    c.notified.inTry = c.inTry := by
  cases c <;> rfl

@[simp] theorem current_notified (c : ChildPc) :
    c.notified.current = c.current := by
  cases c <;> rfl

@[simp] theorem uncached_notified (c : ChildPc) :
    c.notified.uncached = c.uncached := by
  cases c <;> rfl

@[simp] theorem justRan_notified (c : ChildPc) :
    c.notified.justRan = c.justRan := by
  cases c <;> rfl

@[simp] theorem clean_notified (c : ChildPc) :
    c.notified.clean = c.clean := by
  cases c <;> rfl

theorem notified_ne_waiting (c : ChildPc) : c.notified ≠ .waiting false := by
  cases c <;> simp [notified]

end ChildPc

-- ======================================================= the invariant

/-- The tasks of a list of items. -/
def vals (l : List (Nat × Task)) : List Task := l.map Prod.snd

@[simp] theorem vals_nil : vals [] = [] := rfl

@[simp] theorem vals_cons (e : Nat × Task) (l : List (Nat × Task)) :
    vals (e :: l) = e.2 :: vals l := rfl

@[simp] theorem vals_append (l₁ l₂ : List (Nat × Task)) :
    vals (l₁ ++ l₂) = vals l₁ ++ vals l₂ := List.map_append

@[simp] theorem vals_length (l : List (Nat × Task)) :
    (vals l).length = l.length := List.length_map _

theorem vals_take (n : Nat) (l : List (Nat × Task)) :
    vals (l.take n) = (vals l).take n := List.map_take

theorem vals_drop (n : Nat) (l : List (Nat × Task)) :
    vals (l.drop n) = (vals l).drop n := List.map_drop

/-- The tasks the thread has taken, in the order it took them. -/
def Places.taken (x : Places) : List Task :=
  vals x.gc ++ vals x.running.toList

/-- The same with those still in the queue. -/
def Places.line (x : Places) : List Task := x.taken ++ vals x.queue

namespace Life

variable {A : Allocator} {s s' : Life} {x x' : Places}

/-- The tasks collected since the last handling of `COLLECT_GARBAGE`. -/
def recent (s : Life) : List Task := s.collected.drop s.handled

structure WorkerInv (s : Life) (x : Places) : Prop where
  rep : Rep s.data x
  order : (s.collected ++ x.line).Sublist s.inserted
  perm : (s.unstacked ++ (s.collected ++ x.line)).Perm s.inserted
  serials : s.inserted.map Task.serial = List.range s.inserted.length
  running : s.child.inTry = true →
    x.running.map Prod.snd = s.child.current
  ranSub : s.ran.Sublist (s.collected ++ x.taken)
  ranAll : s.child.clean = true →
    s.ran = s.collected ++ (vals x.gc ++ s.child.justRan)
  cache : s.child.inTry = true →
    vals x.cache ++ s.child.uncached = s.recent ++ vals x.gc
  counted : s.handled + s.data.tasksCollected = s.collected.length
  flag : .collectGarbage ∈ s.state ↔ 0 < s.data.tasksCollected
  stacking : .joined ∈ s.state → ∀ o, s.creator ≠ .stacking o
  left : s.leftJoined = true → .joined ∈ s.state ∧ x.queue = []
    ∧ x.running = none ∧ s.ran = s.collected ++ vals x.gc ∧ s.child.inTry = false
  wait : s.child = .waiting false → x.queue = []
    ∧ .joined ∉ s.state ∧ .collectGarbage ∉ s.state

theorem workerInv_init (worker : Bool) :
    WorkerInv (init worker) ⟨[], [], [], none⟩ where
  rep := rep_alloc
  order := List.Sublist.refl _
  perm := List.Perm.refl _
  serials := rfl
  running _ := rfl
  ranSub := List.Sublist.refl _
  ranAll _ := rfl
  cache _ := rfl
  counted := rfl
  flag := by simp [init, WorkerData.alloc]
  stacking _ _ h := by cases h
  left h := by cases h
  wait h := by cases h

-- ======================================================= idle steps

/-- A step that moves no task and starts none. -/
structure Idle (s s' : Life) : Prop where
  data : s'.data = s.data
  history : s'.inserted = s.inserted ∧ s'.unstacked = s.unstacked
    ∧ s'.collected = s.collected ∧ s'.ran = s.ran
    ∧ s'.leftJoined = s.leftJoined ∧ s'.handled = s.handled
  position : s'.child.inTry = true → s.child.inTry = true
    ∧ s'.child.current = s.child.current
    ∧ s'.child.uncached = s.child.uncached
  clean : s'.child.clean = true → s.child.clean = true
    ∧ s'.child.justRan = s.child.justRan
  flag : .collectGarbage ∈ s'.state ↔ .collectGarbage ∈ s.state
  joined : .joined ∈ s.state → .joined ∈ s'.state
  stacking : .joined ∈ s'.state → (∀ o, s'.creator ≠ .stacking o)
    ∨ s'.creator = s.creator ∧ .joined ∈ s.state
  wait : s'.child = .waiting false → s.child = .waiting false
    ∧ (.joined ∈ s'.state → .joined ∈ s.state)

theorem WorkerInv.idle (hi : WorkerInv s x) (h : Idle s s') :
    WorkerInv s' x := by
  obtain ⟨h₁, h₂, h₃, h₄, h₅, h₆⟩ := h.history
  have hrecent : s'.recent = s.recent := by
    unfold recent
    rw [h₃, h₆]
  refine ⟨?_, ?_, ?_, ?_, ?_, ?_, ?_, ?_, ?_, ?_, ?_, ?_, ?_⟩
  · rw [h.data]
    exact hi.rep
  · rw [h₁, h₃]
    exact hi.order
  · rw [h₁, h₂, h₃]
    exact hi.perm
  · rw [h₁]
    exact hi.serials
  · intro ht
    obtain ⟨ht', hc, -⟩ := h.position ht
    rw [hc]
    exact hi.running ht'
  · rw [h₃, h₄]
    exact hi.ranSub
  · intro ht
    obtain ⟨ht', hc⟩ := h.clean ht
    rw [hc, h₃, h₄]
    exact hi.ranAll ht'
  · intro ht
    obtain ⟨ht', -, hc⟩ := h.position ht
    rw [hc, hrecent]
    exact hi.cache ht'
  · rw [h.data, h₃, h₆]
    exact hi.counted
  · rw [h.flag, h.data]
    exact hi.flag
  · intro hj
    rcases h.stacking hj with hs | ⟨hs, hj⟩
    · exact hs
    · rw [hs]
      exact hi.stacking hj
  · rw [h₃, h₄, h₅]
    intro hl
    obtain ⟨hj, hq, hn, hr, ht⟩ := hi.left hl
    refine ⟨h.joined hj, hq, hn, hr, ?_⟩
    by_contra ht'
    have := (h.position (by simpa using ht')).1
    rw [ht] at this
    cases this
  · intro hw
    obtain ⟨hw, hj⟩ := h.wait hw
    obtain ⟨hq, hj', hg⟩ := hi.wait hw
    exact ⟨hq, fun h => hj' (hj h), fun hg' => hg (h.flag.mp hg')⟩

/-- The creator goes on without touching the monitor or the tasks. -/
theorem idle_creator (hdata : s'.data = s.data)
    (hhist : s'.inserted = s.inserted ∧ s'.unstacked = s.unstacked
      ∧ s'.collected = s.collected ∧ s'.ran = s.ran
      ∧ s'.leftJoined = s.leftJoined ∧ s'.handled = s.handled)
    (hstate : s'.state = s.state) (hchild : s'.child = s.child)
    (hstack : .joined ∈ s.state → ∀ o, s'.creator ≠ .stacking o) :
    Idle s s' where
  data := hdata
  history := hhist
  position := by simp [hchild]
  clean := by simp [hchild]
  flag := by rw [hstate]
  joined := by simp [hstate]
  stacking h := Or.inl (hstack (hstate ▸ h))
  wait := by simp [hchild, hstate]

/-- It changes a flag, which notifies the thread. -/
theorem idle_flag {m : MonitorState} {c : CreatorPc}
    (hc : ∀ o, c ≠ .stacking o)
    (hflag : .collectGarbage ∈ m ↔ .collectGarbage ∈ s.state)
    (hjoined : .joined ∈ s.state → .joined ∈ m) :
    Idle s { s with
      state := m, child := s.child.notified, creator := c } where
  data := rfl
  history := ⟨rfl, rfl, rfl, rfl, rfl, rfl⟩
  position := by simp
  clean := by simp
  flag := hflag
  joined := hjoined
  stacking _ := Or.inl hc
  wait h := absurd h (ChildPc.notified_ne_waiting _)

/-- The thread goes on and does not go to wait. -/
theorem idle_child (hdata : s'.data = s.data)
    (hhist : s'.inserted = s.inserted ∧ s'.unstacked = s.unstacked
      ∧ s'.collected = s.collected ∧ s'.ran = s.ran
      ∧ s'.leftJoined = s.leftJoined ∧ s'.handled = s.handled)
    (hcreator : s'.creator = s.creator)
    (hflags : ∀ f, f = .joined ∨ f = .collectGarbage →
      (f ∈ s'.state ↔ f ∈ s.state))
    (hpos : s'.child.inTry = true → s.child.inTry = true
      ∧ s'.child.current = s.child.current
      ∧ s'.child.uncached = s.child.uncached)
    (hclean : s'.child.clean = true → s.child.clean = true
      ∧ s'.child.justRan = s.child.justRan)
    (hwait : s'.child ≠ .waiting false) : Idle s s' where
  data := hdata
  history := hhist
  position := hpos
  clean := hclean
  flag := hflags _ (Or.inr rfl)
  joined := (hflags _ (Or.inl rfl)).mpr
  stacking h := Or.inr ⟨hcreator, (hflags _ (Or.inl rfl)).mp h⟩
  wait h := absurd h hwait

theorem idle_notifyAll (s : Life) : Idle s s.notifyAll := by
  rw [notifyAll_eq]
  refine idle_child rfl ⟨rfl, rfl, rfl, rfl, rfl, rfl⟩ rfl (fun _ _ => Iff.rfl)
    ?_ ?_ (ChildPc.notified_ne_waiting _)
  · simp
  · simp

-- ==================================================== creator and tasks

/-- Whoever waits without a notification has an empty queue, so that the
insertion notifies it. -/
theorem WorkerInv.addTask {object : Addr} (hi : WorkerInv s x)
    (hc : s.creator = .stacking object) :
    ∃ s' x', s.addTask A object = some s' ∧ s'.creator = .stacking object
      ∧ s'.state = s.state ∧ WorkerInv s' x' := by
  let v : Task := ⟨object, s.inserted.length⟩
  obtain ⟨a, d, hadd, hrep, htc⟩ := WorkerData.addTask_spec A v hi.rep
  have hnj : .joined ∉ s.state := fun hj => hi.stacking hj object hc
  let x' : Places := { x with queue := x.queue ++ [(a, v)] }
  have hline : x'.line = x.line ++ [v] := by
    simp [Places.line, Places.taken, x']
  -- the invariant, wherever the thread is after the notification
  have hinv : ∀ k : ChildPc, k ≠ .waiting false →
      (k = s.child ∨ k = s.child.notified) →
      WorkerInv { s with
        data := d, inserted := s.inserted ++ [v], child := k } x' := by
    intro k hk hks
    have hsame : k.inTry = s.child.inTry ∧ k.current = s.child.current
        ∧ k.uncached = s.child.uncached ∧ k.clean = s.child.clean
        ∧ k.justRan = s.child.justRan := by
      rcases hks with rfl | rfl <;> simp
    obtain ⟨h₁, h₂, h₃, h₄, h₅⟩ := hsame
    refine ⟨hrep, ?_, ?_, ?_, ?_, hi.ranSub, ?_, ?_, ?_, ?_, hi.stacking,
      ?_, fun h => absurd h hk⟩
    · rw [hline, ← List.append_assoc]
      exact hi.order.append (List.Sublist.refl _)
    · rw [hline, ← List.append_assoc, ← List.append_assoc]
      refine List.Perm.append_right _ ?_
      rw [List.append_assoc]
      exact hi.perm
    · simp [hi.serials, v, List.range_succ]
    · rw [h₁, h₂]
      exact hi.running
    · rw [h₄, h₅]
      exact hi.ranAll
    · simp only [recent]
      rw [h₁, h₃]
      exact hi.cache
    · simp only [htc]
      exact hi.counted
    · simp only [htc]
      exact hi.flag
    · exact fun hl => absurd (hi.left hl).1 hnj
  have hstep : s.addTask A object = some
      (if x.queue = [] then
        { s with data := d, inserted := s.inserted ++ [v] }.notifyAll
      else { s with data := d, inserted := s.inserted ++ [v] }) := by
    have hadd' : s.data.addTask A ⟨object, s.inserted.length⟩ = _ := hadd
    simp only [Life.addTask, hadd', Option.map_some, decide_eq_true_eq, v]
  by_cases hq : x.queue = []
  · rw [if_pos hq, notifyAll_eq] at hstep
    refine ⟨_, x', hstep, hc, rfl, hinv _ ?_ (Or.inr rfl)⟩
    exact ChildPc.notified_ne_waiting _
  · rw [if_neg hq] at hstep
    refine ⟨_, x', hstep, hc, rfl, hinv s.child ?_ (Or.inl rfl)⟩
    exact fun hw => hq (hi.wait hw).1

/-- `Worker::unstack` takes the first task of the queue, if there is
one. -/
theorem WorkerInv.unstack (hi : WorkerInv s x) :
    ∃ s' x', s.unstack = some s' ∧ WorkerInv s' x' := by
  cases hq : x.queue with
  | nil =>
      have hd := WorkerData.dequeueTask_nil hi.rep hq
      refine ⟨_, x, by rw [Life.unstack, hd]; rfl, hi.idle ?_⟩
      refine idle_creator rfl ⟨rfl, List.append_nil _, rfl, rfl, rfl, rfl⟩ rfl
        rfl ?_
      exact hi.stacking
  | cons e l =>
      obtain ⟨d, hd, hrep, htc⟩ := WorkerData.dequeueTask_cons hi.rep hq
      have hline : x.line = x.taken ++ e.2 :: vals l := by
        rw [Places.line, hq, vals_cons]
      refine ⟨{ s with data := d, unstacked := s.unstacked ++ [e.2] },
        { x with queue := l }, by rw [Life.unstack, hd]; rfl, hrep, ?_, ?_,
        hi.serials, hi.running, hi.ranSub, hi.ranAll, ?_, ?_, ?_,
        hi.stacking, ?_, ?_⟩
      · refine List.Sublist.trans ?_ hi.order
        rw [hline]
        exact List.Sublist.append_left (List.Sublist.append_left
          (List.sublist_cons_self _ _) _) _
      · refine List.Perm.trans ?_ hi.perm
        rw [hline, List.append_assoc]
        refine List.Perm.append_left _ ?_
        show (e.2 :: (s.collected ++ (x.taken ++ vals l))).Perm _
        rw [← List.append_assoc, ← List.append_assoc]
        exact List.perm_middle.symm
      · simp only [recent]
        exact hi.cache
      · simp only [htc]
        exact hi.counted
      · simp only [htc]
        exact hi.flag
      · intro hl
        rw [(hi.left hl).2.1] at hq
        cases hq
      · intro hw
        rw [(hi.wait hw).1] at hq
        cases hq

/-- How many tasks are in the places. -/
theorem WorkerInv.count (hi : WorkerInv s x) :
    s.unstacked.length + s.collected.length + x.gc.length
      + x.running.toList.length + x.queue.length = s.inserted.length := by
  have hp := hi.perm.length_eq
  simp only [Places.line, Places.taken, List.length_append, vals_length] at hp
  omega

/-- A collection moves tasks from the gc queue to the collected ones and
to the connections the thread is to drop. -/
theorem WorkerInv.collects {k : Nat} {d : WorkerData} {m : MonitorState}
    {c : ChildPc} (hi : WorkerInv s x) (hk : k ≤ x.gc.length)
    (hrep : Rep d { x with gc := x.gc.drop k })
    (htc : d.tasksCollected = s.data.tasksCollected + k)
    (hc : c = s.child ∧ k = 0 ∨ c = s.child.notified)
    (hflag : .collectGarbage ∈ m ↔ .collectGarbage ∈ s.state ∨ 0 < k)
    (hjoined : .joined ∈ m ↔ .joined ∈ s.state) :
    WorkerInv { s with
      data := d, collected := s.collected ++ vals (x.gc.take k), state := m,
      child := c } { x with gc := x.gc.drop k } := by
  have hgc : vals (x.gc.take k) ++ vals (x.gc.drop k) = vals x.gc := by
    rw [← vals_append, List.take_append_drop]
  have hlen : (vals (x.gc.take k)).length = k := by
    rw [vals_length, List.length_take]
    omega
  have hall : (s.collected ++ vals (x.gc.take k))
      ++ (vals (x.gc.drop k) ++ vals x.running.toList)
      = s.collected ++ x.taken := by
    rw [Places.taken, ← hgc]
    simp only [List.append_assoc]
  have hline : (s.collected ++ vals (x.gc.take k))
      ++ { x with gc := x.gc.drop k }.line = s.collected ++ x.line := by
    show _ ++ ((_ ++ _) ++ vals x.queue) = _
    rw [Places.line, ← List.append_assoc, hall, List.append_assoc]
  have hsame : c.inTry = s.child.inTry ∧ c.current = s.child.current
      ∧ c.uncached = s.child.uncached ∧ c.clean = s.child.clean
      ∧ c.justRan = s.child.justRan := by
    rcases hc with ⟨rfl, -⟩ | rfl <;> simp
  obtain ⟨h₁, h₂, h₃, h₄, h₅⟩ := hsame
  have hcount := hi.counted
  refine ⟨hrep, ?_, ?_, hi.serials, ?_, ?_, ?_, ?_, ?_, ?_, ?_, ?_, ?_⟩
  · rw [hline]
    exact hi.order
  · rw [hline]
    exact hi.perm
  · rw [h₁, h₂]
    exact hi.running
  · show s.ran.Sublist (_ ++ (_ ++ _))
    rw [hall]
    exact hi.ranSub
  · rw [h₄, h₅, List.append_assoc, ← List.append_assoc (vals _), hgc]
    exact hi.ranAll
  · rw [h₁, h₃]
    intro ht
    rw [hi.cache ht]
    simp only [recent]
    rw [List.drop_append_of_le_length (by omega), List.append_assoc, hgc]
  · show s.handled + d.tasksCollected
      = (s.collected ++ vals (x.gc.take k)).length
    rw [htc, List.length_append, hlen]
    omega
  · show .collectGarbage ∈ m ↔ 0 < d.tasksCollected
    rw [hflag, htc, hi.flag]
    omega
  · exact fun hj => hi.stacking (hjoined.mp hj)
  · intro hl
    obtain ⟨hj, hq, hn, hr, ht⟩ := hi.left hl
    refine ⟨hjoined.mpr hj, hq, hn, ?_, h₁.trans ht⟩
    rw [List.append_assoc, hgc]
    exact hr
  · rcases hc with ⟨rfl, rfl⟩ | rfl
    · intro hw
      obtain ⟨hq, hj, hg⟩ := hi.wait hw
      refine ⟨hq, fun h => hj (hjoined.mp h), fun h => ?_⟩
      rcases hflag.mp h with h | h
      · exact hg h
      · omega
    · exact fun hw => absurd hw (ChildPc.notified_ne_waiting _)

/-- `Worker::collect` returns what is neither unstacked nor collected. -/
theorem WorkerInv.collect (hi : WorkerInv s x) (answers : List Bool) :
    ∃ s' x', s.collect answers = some
        ((s'.inserted.length - s'.unstacked.length
          - s'.collected.length : Int), s') ∧ WorkerInv s' x' := by
  obtain ⟨d, hd, hrep, htc⟩ := WorkerData.collectTasks_spec answers hi.rep
  generalize hk : WorkerData.accepted answers x.gc = k at hd hrep htc
  have hle : k ≤ x.gc.length := by
    rw [← hk]
    exact Nat.min_le_right _ _
  have hcount := hi.count
  have hlen : (vals (x.gc.take k)).length = k := by
    rw [vals_length, List.length_take]
    omega
  have hrun : (if x.running.isSome = true then 1 else 0 : Int)
      = (x.running.toList.length : Int) := by
    cases x.running <;> rfl
  have hsize : (x.queue.length + (x.gc.length - k : Nat)
      + (if x.running.isSome = true then 1 else 0) : Int)
      = s.inserted.length - s.unstacked.length
        - (s.collected ++ vals (x.gc.take k)).length := by
    rw [List.length_append, hlen, hrun]
    omega
  have hempty : (vals (x.gc.take k)).isEmpty = true ↔ k = 0 := by
    rw [List.isEmpty_iff_length_eq_zero, hlen]
  have hstep : s.collect answers = some
      ((s.inserted.length - s.unstacked.length
        - (s.collected ++ vals (x.gc.take k)).length : Int),
      if k = 0 then
        { s with data := d, collected := s.collected ++ vals (x.gc.take k) }
      else { s with
        data := d, collected := s.collected ++ vals (x.gc.take k)
        }.monitorAdd .collectGarbage) := by
    have hd' : s.data.collectTasks answers = some (_, vals _, d) := hd
    simp only [Life.collect, hd', Option.map_some, hempty, hsize]
  by_cases h0 : k = 0
  · rw [if_pos h0] at hstep
    refine ⟨_, _, hstep, hi.collects hle hrep htc (Or.inl ⟨rfl, h0⟩) ?_
      Iff.rfl⟩
    simp [h0]
  · rw [if_neg h0, monitorAdd_eq] at hstep
    refine ⟨_, _, hstep, hi.collects hle hrep htc (Or.inr rfl) ?_ ?_⟩
    · simp [Nat.pos_of_ne_zero h0]
    · simp

-- ===================================================== thread and tasks

theorem WorkerInv.recent_length (hi : WorkerInv s x) :
    s.recent.length = s.data.tasksCollected := by
  have hle := hi.counted
  rw [recent, List.length_drop]
  omega

/-- Between two tasks the cache has the connections of the tasks that were
collected since the last handling, then those of the gc queue. -/
theorem WorkerInv.cached (hi : WorkerInv s x) (hc : s.child = .nextTask) :
    vals x.cache = s.recent ++ vals x.gc := by
  have h := hi.cache (by rw [hc]; rfl)
  rw [hc] at h
  simpa [ChildPc.uncached] using h

theorem WorkerInv.cache_length (hi : WorkerInv s x)
    (hc : s.child = .nextTask) : s.data.tasksCollected ≤ x.cache.length := by
  have h := congrArg List.length (hi.cached hc)
  rw [vals_length, List.length_append, hi.recent_length] at h
  omega

/-- The connections that the handling of `COLLECT_GARBAGE` drops, and
those it keeps. -/
theorem WorkerInv.cache_split (hi : WorkerInv s x)
    (hc : s.child = .nextTask) :
    vals (x.cache.take s.data.tasksCollected) = s.recent
      ∧ vals (x.cache.drop s.data.tasksCollected) = vals x.gc := by
  have h := hi.cached hc
  have hlen := hi.recent_length
  constructor
  · rw [vals_take, h]
    exact List.take_left' hlen
  · rw [vals_drop, h]
    exact List.drop_left' hlen

/-- The handling of `COLLECT_GARBAGE`. -/
theorem WorkerInv.handles (hi : WorkerInv s x) (hc : s.child = .nextTask) :
    ∃ d x', s.data.handleGarbage = some (s.recent.map some, d)
      ∧ x'.queue = x.queue ∧ x'.gc = x.gc ∧ vals x'.cache = vals x.gc
      ∧ WorkerInv { s with
          data := d, state := s.state.remove .collectGarbage,
          handled := s.collected.length } x' := by
  obtain ⟨d, hd, hrep, htc⟩ :=
    WorkerData.handleGarbage_spec hi.rep (hi.cache_length hc)
  obtain ⟨htake, hdrop⟩ := hi.cache_split hc
  refine ⟨d, { x with cache := x.cache.drop s.data.tasksCollected }, ?_,
    rfl, rfl, hdrop, hrep, hi.order, hi.perm, hi.serials,
    hi.running, hi.ranSub, hi.ranAll, fun _ => ?_, ?_, ?_, ?_, ?_, ?_⟩
  · rw [hd, ← htake, vals, List.map_map]
    rfl
  · show vals (x.cache.drop s.data.tasksCollected) ++ s.child.uncached = _
    rw [hc, hdrop]
    simp [recent, ChildPc.uncached]
  · simp [htc]
  · simp [htc]
  · simpa using hi.stacking
  · intro hl
    have ht := (hi.left hl).2.2.2.2
    rw [hc] at ht
    cases ht
  · intro hw
    rw [hc] at hw
    cases hw

/-- Inside the `zend_try` the loop was not left. -/
theorem WorkerInv.not_left (hi : WorkerInv s x) (hc : s.child.inTry = true) :
    s.leftJoined ≠ true := by
  intro hl
  have ht := (hi.left hl).2.2.2.2
  rw [hc] at ht
  cases ht

theorem WorkerInv.not_running (hi : WorkerInv s x)
    (hc : s.child.inTry = true) (hn : s.child.current = none) :
    x.running = none := by
  have h := hi.running hc
  rw [hn] at h
  exact Option.map_eq_none_iff.mp h

/-- `pmmpthread_worker_next_task` takes the first task of the queue. -/
theorem WorkerInv.takes {e : Nat × Task} {l : List (Nat × Task)}
    (hi : WorkerInv s x) (hc : s.child = .nextTask) (hq : x.queue = e :: l) :
    ∃ d x', s.data.takeTask = some (some e.2, d)
      ∧ WorkerInv { s with data := d, child := .connectTask e.2 } x' := by
  have hnone := hi.not_running (by rw [hc]; rfl) (by rw [hc]; rfl)
  obtain ⟨d, hd, hrep, htc⟩ := WorkerData.takeTask_spec hi.rep hq hnone
  let x' : Places := { x with queue := l, running := some e }
  have htaken : x'.taken = x.taken ++ [e.2] := by
    simp [Places.taken, x', hnone]
  have hline : x'.line = x.line := by
    rw [Places.line, htaken, Places.line, hq, List.append_assoc]
    rfl
  have hcache := hi.cached hc
  have hran := hi.ranAll (by rw [hc]; rfl)
  refine ⟨d, x', hd, hrep, ?_, ?_, hi.serials, fun _ => rfl, ?_, fun _ => ?_,
    fun _ => ?_, ?_, ?_, hi.stacking, ?_, ?_⟩
  · rw [hline]
    exact hi.order
  · rw [hline]
    exact hi.perm
  · rw [htaken, ← List.append_assoc]
    exact hi.ranSub.trans (List.sublist_append_left _ _)
  · rw [hc] at hran
    exact hran
  · simp only [recent]
    exact (List.append_nil _).trans hcache
  · simp only [htc]
    exact hi.counted
  · simp only [htc]
    exact hi.flag
  · exact fun hl => absurd hl (hi.not_left (by rw [hc]; rfl))
  · exact fun hw => by cases hw

/-- It leaves on `JOINED` with every task run. -/
theorem WorkerInv.leaves (hi : WorkerInv s x) (hc : s.child = .nextTask)
    (hq : x.queue = []) (hj : .joined ∈ s.state) :
    WorkerInv { s with child := .shutdownFunctions, leftJoined := true } x := by
  have hnone := hi.not_running (by rw [hc]; rfl) (by rw [hc]; rfl)
  have hran := hi.ranAll (by rw [hc]; rfl)
  rw [hc] at hran
  exact
    { rep := hi.rep
      order := hi.order
      perm := hi.perm
      serials := hi.serials
      running := fun h => by cases h
      ranSub := hi.ranSub
      ranAll := fun h => by cases h
      cache := fun h => by cases h
      counted := hi.counted
      flag := hi.flag
      stacking := hi.stacking
      left := fun _ => ⟨hj, hq, hnone, by simpa [ChildPc.justRan] using hran,
        rfl⟩
      wait := fun h => by cases h }

/-- It goes to wait only with nothing to do. -/
theorem WorkerInv.waits (hi : WorkerInv s x) (hc : s.child = .nextTask)
    (hq : x.queue = []) (hj : .joined ∉ s.state)
    (hg : .collectGarbage ∉ s.state) :
    WorkerInv { s with child := .waiting false } x := by
  have hrun := hi.running (by rw [hc]; rfl)
  have hran := hi.ranAll (by rw [hc]; rfl)
  have hcache := hi.cache (by rw [hc]; rfl)
  rw [hc] at hrun hran hcache
  exact
    { rep := hi.rep
      order := hi.order
      perm := hi.perm
      serials := hi.serials
      running := fun _ => hrun
      ranSub := hi.ranSub
      ranAll := fun _ => hran
      cache := fun _ => hcache
      counted := hi.counted
      flag := hi.flag
      stacking := hi.stacking
      left := fun hl => absurd hl (hi.not_left (by rw [hc]; rfl))
      wait := fun _ => ⟨hq, hj, hg⟩ }

theorem WorkerInv.nextTask (hi : WorkerInv s x) (hc : s.child = .nextTask)
    (h : s.nextTask = some s') : ∃ x', WorkerInv s' x' := by
  obtain ⟨u, hu, h⟩ := Option.bind_eq_some_iff.mp h
  -- after the handling of COLLECT_GARBAGE the flag is not set
  obtain ⟨y, hiu, hcu, hgu⟩ : ∃ y, WorkerInv u y ∧ u.child = .nextTask
      ∧ .collectGarbage ∉ u.state := by
    split at hu
    · obtain ⟨d, y, hd, -, -, -, hiy⟩ := hi.handles hc
      rw [hd, Option.map_some] at hu
      injection hu with hu
      rw [monitorRemove_eq] at hu
      have hn : s.child.notified = s.child := by rw [hc]; rfl
      subst hu
      simp only [hn]
      exact ⟨y, hiy, hc, by simp⟩
    · next hg =>
        injection hu with hu
        subst hu
        exact ⟨x, hi, hc, by simpa using hg⟩
  cases hq : y.queue with
  | nil =>
      rw [hiu.rep.queue.head_eq_none.mpr hq] at h
      dsimp only at h
      split at h
      · next hj =>
          injection h with h
          exact ⟨y, h ▸ hiu.leaves hcu hq (MonitorState.check_one.mp hj)⟩
      · next hj =>
          injection h with h
          exact ⟨y, h ▸ hiu.waits hcu hq (by simpa using hj) hgu⟩
  | cons e l =>
      have hhead : u.data.queue.head = some e.1 := by
        rw [hiu.rep.queue.head, hq]
        rfl
      obtain ⟨d, y', hd, hiy⟩ := hiu.takes hcu hq
      rw [hhead] at h
      simp only [hd, Option.bind_some, Option.map_some] at h
      injection h with h
      exact ⟨y', h ▸ hiy⟩

/-- The task whose turn it is, as an item. -/
theorem WorkerInv.current {v : Task} (hi : WorkerInv s x)
    (hc : s.child.inTry = true) (hv : s.child.current = some v) :
    ∃ a, x.running = some (a, v) := by
  have h := hi.running hc
  rw [hv] at h
  obtain ⟨e, he, rfl⟩ := Option.map_eq_some_iff.mp h
  exact ⟨e.1, he⟩

/-- A task is run: it comes after all tasks before it. -/
theorem WorkerInv.runs {v : Task} {c : ChildPc} (hi : WorkerInv s x)
    (hc : s.child = .runTask v)
    (hpos : c.inTry = true → c.current = some v ∧ c.uncached = [])
    (hclean : c.clean = true → c.justRan = [v])
    (hw : c ≠ .waiting false) :
    WorkerInv { s with ran := s.ran ++ [v], child := c } x := by
  obtain ⟨a, ha⟩ := hi.current (v := v) (by rw [hc]; rfl) (by rw [hc]; rfl)
  have hran := hi.ranAll (by rw [hc]; rfl)
  have hcache := hi.cache (by rw [hc]; rfl)
  rw [hc] at hran hcache
  have hran' : s.ran ++ [v] = s.collected ++ (vals x.gc ++ [v]) := by
    rw [hran]
    simp [ChildPc.justRan]
  exact
    { rep := hi.rep
      order := hi.order
      perm := hi.perm
      serials := hi.serials
      running := fun h => by
        rw [(hpos h).1, ha]
        rfl
      ranSub := by
        show (s.ran ++ [v]).Sublist _
        rw [hran', Places.taken, ha]
        exact List.Sublist.refl _
      ranAll := fun h => by
        rw [hclean h]
        exact hran'
      cache := fun h => by
        rw [(hpos h).2]
        exact hcache
      counted := hi.counted
      flag := hi.flag
      stacking := hi.stacking
      left := fun hl => absurd hl (hi.not_left (by rw [hc]; rfl))
      wait := fun h => absurd h hw }

/-- `pmmpthread_worker_add_garbage` under the monitor. -/
theorem WorkerInv.garbage {v : Task} {ok : Bool} (hi : WorkerInv s x)
    (hc : s.child = .garbage v ok) :
    ∃ d x', s.data.addGarbage = some d
      ∧ WorkerInv { s with data := d, child := .cachePush v ok } x' := by
  obtain ⟨a, ha⟩ := hi.current (v := v) (by rw [hc]; rfl) (by rw [hc]; rfl)
  obtain ⟨d, hd, hrep, htc⟩ := WorkerData.addGarbage_spec hi.rep ha
  let x' : Places := { x with gc := x.gc ++ [(a, v)], running := none }
  have htaken : x'.taken = x.taken := by
    simp [Places.taken, x', ha]
  have hline : x'.line = x.line := by
    rw [Places.line, htaken]
    rfl
  have hcache := hi.cache (by rw [hc]; rfl)
  have hran := hi.ranAll
  rw [hc] at hcache hran
  have hgc : vals x'.gc = vals x.gc ++ [v] := by simp [x']
  refine ⟨d, x', hd, hrep, ?_, ?_, hi.serials, fun _ => rfl, ?_, ?_,
    fun _ => ?_, ?_, ?_, hi.stacking, ?_, fun h => by cases h⟩
  · rw [hline]
    exact hi.order
  · rw [hline]
    exact hi.perm
  · rw [htaken]
    exact hi.ranSub
  · intro h
    cases ok with
    | false => cases h
    | true =>
        rw [hgc]
        exact (hran rfl).trans (by simp [ChildPc.justRan])
  · simp only [recent]
    show vals x.cache ++ [v] = _
    rw [hgc, ← List.append_assoc]
    exact congrArg (· ++ [v]) ((List.append_nil _).symm.trans hcache)
  · simp only [htc]
    exact hi.counted
  · simp only [htc]
    exact hi.flag
  · exact fun hl => absurd hl (hi.not_left (by rw [hc]; rfl))

/-- The connection goes to the end of the cache. -/
theorem WorkerInv.caches {v : Task} {ok : Bool} (hi : WorkerInv s x)
    (hc : s.child = .cachePush v ok) :
    ∃ d x', s.data.cacheDone A v = some d
      ∧ WorkerInv { s with data := d, child := .dropConnection ok } x' := by
  obtain ⟨a, d, hd, hrep, htc⟩ := WorkerData.cacheDone_spec A v hi.rep
  have hcache := hi.cache (by rw [hc]; rfl)
  have hran := hi.ranAll
  have hrun := hi.running (by rw [hc]; rfl)
  rw [hc] at hcache hran hrun
  refine ⟨d, { x with cache := x.cache ++ [(a, v)] }, hd, hrep, hi.order,
    hi.perm, hi.serials, fun _ => hrun, hi.ranSub, ?_, fun _ => ?_, ?_, ?_,
    hi.stacking, ?_, fun h => by cases h⟩
  · intro h
    cases ok with
    | false => cases h
    | true => exact hran rfl
  · simp only [recent]
    show vals (x.cache ++ [(a, v)]) ++ [] = _
    rw [vals_append, List.append_nil]
    exact hcache
  · simp only [htc]
    exact hi.counted
  · simp only [htc]
    exact hi.flag
  · exact fun hl => absurd hl (hi.not_left (by rw [hc]; rfl))

/-- A bailout while connections are dropped. -/
theorem WorkerInv.bailInDrop {i : Nat} (hi : WorkerInv s x)
    (h : s.bailInDrop i = some s') : ∃ x', WorkerInv s' x' := by
  unfold Life.bailInDrop at h
  split at h
  · next hg =>
      obtain ⟨hc, -, hlt⟩ := hg
      have hle := hi.cache_length hc
      obtain ⟨d, hd, hrep, htc⟩ :=
        WorkerData.dropCached_spec i hi.rep (by omega)
      cases hx : x.cache.drop i with
      | nil =>
          rw [List.drop_eq_nil_iff] at hx
          omega
      | cons e l =>
          obtain ⟨h', q', hs, hrep'⟩ :=
            WorkerData.shiftCache_spec hrep hx false
          simp only [hd, Option.bind_some, hs, Option.map_some] at h
          injection h with h
          subst h
          refine ⟨{ x with cache := l }, hrep', hi.order, hi.perm, hi.serials,
            fun h => (by cases h), hi.ranSub, fun h => (by cases h),
            fun h => (by cases h), ?_, ?_, hi.stacking, ?_,
            fun h => (by cases h)⟩
          · show s.handled + d.tasksCollected = _
            rw [htc]
            exact hi.counted
          · show _ ↔ 0 < d.tasksCollected
            rw [htc]
            exact hi.flag
          · exact fun hl => absurd hl (hi.not_left (by rw [hc]; rfl))
  · cases h

-- ============================================================ all steps

/-- The second position says the same about the tasks as the first, or
nothing. -/
structure Keeps (c c' : ChildPc) : Prop where
  position : c'.inTry = true → c.inTry = true ∧ c'.current = c.current
    ∧ c'.uncached = c.uncached
  clean : c'.clean = true → c.clean = true ∧ c'.justRan = c.justRan
  wait : c' ≠ .waiting false

theorem keeps_after (c : ChildPc) {c' : ChildPc} (h : c'.inTry = false) :
    Keeps c c' := by
  refine ⟨?_, ?_, ?_⟩
  · simp [h]
  · cases c' <;> simp_all [ChildPc.inTry, ChildPc.clean]
  · rintro rfl
    cases h

/-- Between two tasks, and at a task that is not yet run. -/
theorem keeps_between {c c' : ChildPc} (hc : c.clean = true)
    (ht : c.inTry = true) (hj : c'.justRan = c.justRan)
    (hp : c'.current = c.current ∧ c'.uncached = c.uncached)
    (hw : c' ≠ .waiting false) : Keeps c c' :=
  ⟨fun _ => ⟨ht, hp⟩, fun _ => ⟨hc, hj⟩, hw⟩

theorem idle_goes {m : MonitorState} {c : ChildPc} (ready : Bool)
    (hflags : ∀ f, f = .joined ∨ f = .collectGarbage →
      (f ∈ m ↔ f ∈ s.state)) (h : Keeps s.child c) :
    Idle s { s with state := m, ready := ready, child := c } :=
  idle_child rfl ⟨rfl, rfl, rfl, rfl, rfl, rfl⟩ rfl hflags h.position h.clean
    h.wait

theorem idle_adds {f : Flag} {c : ChildPc}
    (hf : f ≠ .joined ∧ f ≠ .collectGarbage) (h : Keeps s.child c) :
    Idle s { s.monitorAdd f with child := c } := by
  rw [monitorAdd_eq]
  refine idle_goes s.ready ?_ h
  rintro g (rfl | rfl)
  · simp [hf.1.symm]
  · simp [hf.2.symm]

/-- The thread goes on to one of two positions. -/
theorem WorkerInv.branch {p : Prop} [Decidable p] {c c' : ChildPc}
    (hi : WorkerInv s x) (h : Keeps s.child c) (h' : Keeps s.child c') :
    WorkerInv { s with child := if p then c else c' } x := by
  refine hi.idle (idle_goes s.ready (fun _ _ => Iff.rfl) ?_)
  split
  · exact h
  · exact h'

theorem WorkerInv.child {o : Outcome} (hi : WorkerInv s x)
    (h : s.childStep A o = some s') : ∃ x', WorkerInv s' x' := by
  unfold childStep at h
  cases hc : s.child with
  | absent | waiting _ | exited =>
      rw [hc] at h
      cases h
  | nextTask =>
      rw [hc] at h
      exact hi.nextTask hc h
  | garbage v ok =>
      obtain ⟨d, x', hd, hi'⟩ := hi.garbage hc
      rw [hc] at h
      simp only [hd, Option.map_some, notifyAll_eq] at h
      injection h with h
      exact ⟨x', h ▸ hi'⟩
  | cachePush v ok =>
      obtain ⟨d, x', hd, hi'⟩ := hi.caches (A := A) hc
      rw [hc] at h
      dsimp only at h
      split at h
      · injection h with h
        subst h
        exact ⟨x, hi.idle (idle_goes s.ready (fun _ _ => Iff.rfl)
          (keeps_after _ rfl))⟩
      · simp only [hd, Option.map_some] at h
        injection h with h
        exact ⟨x', h ▸ hi'⟩
  | runTask v =>
      rw [hc] at h
      injection h with h
      subst h
      refine ⟨x, ?_⟩
      cases o with
      | ok =>
          exact hi.runs hc (fun _ => ⟨rfl, rfl⟩) (fun _ => rfl) (by simp)
      | fail =>
          exact hi.runs hc (fun _ => ⟨rfl, rfl⟩) (fun h => by cases h)
            (by simp)
      | bail =>
          exact hi.runs hc (fun h => by cases h) (fun h => by cases h)
            (by simp)
      | refuse =>
          refine hi.idle (idle_goes s.ready (fun _ _ => Iff.rfl) ?_)
          rw [hc]
          exact ⟨fun _ => ⟨rfl, rfl, rfl⟩, fun h => (by cases h), by simp⟩
  | startup =>
      rw [hc] at h
      injection h with h
      subst h
      refine ⟨x, hi.idle (idle_goes _ (fun _ _ => Iff.rfl) ?_)⟩
      rw [hc]
      exact keeps_between rfl rfl rfl ⟨rfl, rfl⟩ (by simp)
  | shutdownFunctions | cleanCache | shutdown =>
      rw [hc] at h
      injection h with h
      subst h
      exact ⟨x, hi.idle (idle_goes _ (fun _ _ => Iff.rfl)
        (keeps_after _ rfl))⟩
  | setAwaitJoin =>
      rw [hc] at h
      injection h with h
      subst h
      exact ⟨x, hi.idle (idle_adds (by simp) (keeps_after _ rfl))⟩
  | runAdd | runError =>
      rw [hc] at h
      injection h with h
      subst h
      refine ⟨x, hi.idle (idle_adds (by simp) ?_)⟩
      rw [hc]
      exact keeps_between rfl rfl rfl ⟨rfl, rfl⟩ (by simp)
  | taskError v =>
      rw [hc] at h
      injection h with h
      subst h
      refine ⟨x, hi.idle (idle_adds (by simp) ?_)⟩
      rw [hc]
      exact ⟨fun _ => ⟨rfl, rfl, rfl⟩, fun h => (by cases h), by simp⟩
  | connectThis | runDrop _ | connectTask _ =>
      rw [hc] at h
      injection h with h
      subst h
      refine ⟨x, hi.branch (keeps_after _ rfl) ?_⟩
      rw [hc]
      exact keeps_between rfl rfl rfl ⟨rfl, rfl⟩ (by simp)
  | runCheck =>
      rw [hc] at h
      injection h with h
      subst h
      refine ⟨x, hi.branch (keeps_after _ rfl) ?_⟩
      rw [hc]
      exact keeps_between rfl rfl rfl ⟨rfl, rfl⟩ (by simp)
  | runBody =>
      rw [hc] at h
      injection h with h
      subst h
      refine ⟨x, hi.branch ?_ ?_⟩
      · rw [hc]
        exact keeps_between rfl rfl rfl ⟨rfl, rfl⟩ (by simp)
      · rw [hc]
        exact keeps_between rfl rfl rfl ⟨rfl, rfl⟩ (by simp)
  | dropConnection ok =>
      rw [hc] at h
      injection h with h
      subst h
      cases ok with
      | true =>
          refine ⟨x, hi.branch ?_ (keeps_after _ rfl)⟩
          rw [hc]
          exact keeps_between rfl rfl rfl ⟨rfl, rfl⟩ (by simp)
      | false =>
          rw [if_neg (by simp)]
          exact ⟨x, hi.idle (idle_goes s.ready (fun _ _ => Iff.rfl)
            (keeps_after _ rfl))⟩
  | releaseThis =>
      rw [hc] at h
      injection h with h
      subst h
      exact ⟨x, hi.branch (keeps_after _ rfl) (keeps_after _ rfl)⟩
  | runRemove ok =>
      rw [hc] at h
      injection h with h
      subst h
      rw [monitorRemove_eq]
      refine ⟨x, hi.idle (idle_goes s.ready ?_ ?_)⟩
      · rintro g (rfl | rfl) <;> simp
      · split
        · rw [hc]
          exact keeps_between rfl rfl rfl ⟨rfl, rfl⟩ (by simp)
        · exact keeps_after _ rfl
  | awaitExit =>
      rw [hc] at h
      injection h with h
      subst h
      split
      · exact ⟨x, hi.idle (idle_goes s.ready (fun _ _ => Iff.rfl)
          (keeps_after _ rfl))⟩
      · exact ⟨x, hi⟩

/-- The creator goes on to a place that is not in `Worker::stack`. -/
theorem WorkerInv.goes {c : CreatorPc} (hi : WorkerInv s x)
    (dtor : DtorPhase) (hc : ∀ o, c ≠ .stacking o) :
    WorkerInv { s with creator := c, dtor := dtor } x :=
  hi.idle (idle_creator rfl ⟨rfl, rfl, rfl, rfl, rfl, rfl⟩ rfl rfl fun _ => hc)

theorem WorkerInv.creator (hi : WorkerInv s x)
    (h : s.creatorStep A = some s') : ∃ x', WorkerInv s' x' := by
  unfold creatorStep at h
  cases hc : s.creator with
  | user | creating _ =>
      rw [hc] at h
      cases h
  | starting before =>
      rw [hc] at h
      injection h with h
      subst h
      rw [monitorAdd_eq]
      exact ⟨x, hi.idle (idle_flag (by simp) (by simp) (by simp))⟩
  | createFailed before =>
      rw [hc] at h
      injection h with h
      subst h
      rw [monitorRemove_eq]
      exact ⟨x, hi.idle (idle_flag (by simp) (by simp) (by simp))⟩
  | joinStarted | setExit =>
      rw [hc] at h
      injection h with h
      subst h
      rw [monitorAdd_eq]
      exact ⟨x, hi.idle (idle_flag (by simp) (by simp) (by simp))⟩
  | awaitReady | awaitJoin =>
      rw [hc] at h
      injection h with h
      subst h
      split
      · exact ⟨x, hi.goes s.dtor (by simp)⟩
      · exact ⟨x, hi⟩
  | joinBegin | joinChecked =>
      rw [hc] at h
      injection h with h
      subst h
      refine ⟨x, hi.goes s.dtor ?_⟩
      split <;> simp
  | syncThread | syncTasks | syncGlobals | pthreadJoin =>
      rw [hc] at h
      injection h with h
      subst h
      exact ⟨x, hi.idle (idle_creator rfl ⟨rfl, rfl, rfl, rfl, rfl, rfl⟩ rfl rfl
        (by simp))⟩
  | joining =>
      rw [hc] at h
      dsimp only at h
      split at h
      · injection h with h
        subst h
        exact ⟨x, hi.goes s.dtor (by simp)⟩
      · cases h
  | stacking object =>
      obtain ⟨u, x', hu, -, -, hiu⟩ := hi.addTask (A := A) hc
      rw [hc] at h
      simp only [hu, Option.map_some] at h
      injection h with h
      subst h
      exact ⟨x', hiu.goes u.dtor (by simp)⟩
  | dtorStarted =>
      rw [hc] at h
      injection h with h
      subst h
      exact ⟨x, hi.goes _ (by simp)⟩

/-- A thread begins where there was none. -/
theorem WorkerInv.creates (hi : WorkerInv s x) (hc : s.child = .absent) :
    WorkerInv { s with
      child := .startup, creates := s.creates + 1, creator := .awaitReady }
      x := by
  refine hi.idle ?_
  exact
    { data := rfl
      history := ⟨rfl, rfl, rfl, rfl, rfl, rfl⟩
      position := fun _ => by
        rw [hc]
        exact ⟨rfl, rfl, rfl⟩
      clean := fun _ => by
        rw [hc]
        exact ⟨rfl, rfl⟩
      flag := Iff.rfl
      joined := id
      stacking := fun _ => Or.inl (by simp)
      wait := fun h => by cases h }

theorem WorkerInv.step {act : LifeAct} (hj : JoinInv s)
    (hi : WorkerInv s x) (h : step A s act = some s') :
    ∃ x', WorkerInv s' x' := by
  cases act with
  | start | join =>
      obtain ⟨-, rfl⟩ := step_guarded h
      split
      · exact ⟨x, hi⟩
      · exact ⟨x, hi.goes s.dtor (by simp)⟩
  | stack object =>
      obtain ⟨-, rfl⟩ := step_guarded h
      split
      · exact ⟨x, hi⟩
      · next hg =>
          refine ⟨x, hi.idle (idle_creator rfl ⟨rfl, rfl, rfl, rfl, rfl, rfl⟩
            rfl rfl fun hj => absurd ?_ hg)⟩
          simp [MonitorState.check, hj]
  | unstack =>
      obtain ⟨u, x', hu, hiu⟩ := hi.unstack
      obtain ⟨-, h⟩ := step_checked h
      rw [hu] at h
      exact ⟨x', Option.some.inj h ▸ hiu⟩
  | collect answers =>
      obtain ⟨u, x', hu, hiu⟩ := hi.collect answers
      obtain ⟨-, h⟩ := step_checked h
      rw [hu] at h
      exact ⟨x', Option.some.inj h ▸ hiu⟩
  | destruct =>
      obtain ⟨hg, rfl⟩ := step_guarded h
      split
      · exact ⟨x, hi.goes s.dtor (by simp)⟩
      · exact ⟨x, hi.goes .done (by rw [hg.1]; simp)⟩
  | dtorReturn =>
      obtain ⟨-, rfl⟩ := step_guarded h
      refine ⟨x, hi.goes .done ?_⟩
      split <;> simp
  | create ok =>
      obtain ⟨before, hc, rfl⟩ := step_create h
      have hcall := hj.call
      rw [hc] at hcall
      split
      · exact ⟨x, hi.creates (hj.absent hcall.1)⟩
      · exact ⟨x, hi.goes s.dtor (by simp)⟩
  | creator =>
      obtain ⟨-, h⟩ := step_checked h
      exact hi.creator h
  | creatorBail =>
      obtain ⟨-, rfl⟩ := step_guarded h
      exact ⟨x, hi.goes s.dtor (by simp)⟩
  | child o => exact hi.child h
  | bailInDrop i => exact hi.bailInDrop h
  | wake =>
      obtain ⟨n, hc, rfl⟩ := step_wake h
      refine ⟨x, hi.idle (idle_goes s.ready (fun _ _ => Iff.rfl) ?_)⟩
      rw [hc]
      exact keeps_between rfl rfl rfl ⟨rfl, rfl⟩ (by simp)
  | notify reaches =>
      obtain rfl := Option.some.inj h
      split
      · exact ⟨x, hi.idle (idle_notifyAll s)⟩
      · exact ⟨x, hi⟩

theorem Reachable.workerInv (h : Reachable A s) : ∃ x, WorkerInv s x := by
  have hboth : JoinInv s ∧ ∃ x, WorkerInv s x := by
    refine Reachable.induct (I := fun s => JoinInv s ∧ ∃ x, WorkerInv s x)
      (fun worker => ?_) (fun u act u' hu hs => ?_) h
    · exact ⟨joinInv_init worker, _, workerInv_init worker⟩
    · obtain ⟨hj, x, hi⟩ := hu
      exact ⟨hj.step hs, hi.step hj hs⟩
  exact hboth.2

-- ============================================================= results

theorem WorkerInv.nodup (hi : WorkerInv s x) : s.inserted.Nodup := by
  refine List.Nodup.of_map Task.serial ?_
  rw [hi.serials]
  exact List.nodup_range

/-- No task is lost or run twice. Every insertion is in exactly one of the
places, tasks are run in the order of their insertion, `collect` returns
the number of tasks that are neither unstacked nor collected, and a loop
that ends on `JOINED` has run every task that was not unstacked. -/
theorem tasks_conserved (A : Allocator) (s : Life) (h : Reachable A s) :
    ∃ x, Rep s.data x ∧ s.inserted.Nodup
      ∧ (s.unstacked ++ (s.collected ++ (vals x.gc ++ vals x.running.toList
        ++ vals x.queue))).Perm s.inserted
      ∧ s.ran.Sublist s.inserted
      ∧ (∀ answers, ∃ s', s.collect answers = some
        ((s'.inserted.length - s'.unstacked.length
          - s'.collected.length : Int), s'))
      ∧ (s.leftJoined = true →
        ∀ t ∈ s.inserted, t ∉ s.unstacked → t ∈ s.ran) := by
  obtain ⟨x, hi⟩ := h.workerInv
  refine ⟨x, hi.rep, hi.nodup, hi.perm, ?_, ?_, ?_⟩
  · refine hi.ranSub.trans (List.Sublist.trans ?_ hi.order)
    exact List.Sublist.append_left (List.sublist_append_left _ _) _
  · intro answers
    obtain ⟨s', -, hs, -⟩ := hi.collect answers
    exact ⟨s', hs⟩
  · intro hl t ht hu
    obtain ⟨-, hq, hn, hr, -⟩ := hi.left hl
    have hmem := hi.perm.mem_iff.mpr ht
    rw [Places.line, Places.taken, hq, hn] at hmem
    rw [hr]
    simpa [hu] using hmem

/-- Two tasks are stacked, the first is collected while the second waits,
and the worker is joined. -/
def collectedEarly : List LifeAct :=
  [.stack 7, .creator, .stack 8, .creator, .start, .creator, .create true,
    .child .ok, .creator]
    ++ List.replicate 12 (.child .ok)
    ++ [.collect [true], .join, .creator, .creator]
    ++ List.replicate 7 (.child .ok)

theorem tasks_conserved_collectedEarly : ∃ s,
    run .bump (init true) collectedEarly = some s ∧ s.leftJoined = true
      ∧ s.collected = [⟨7, 0⟩] ∧ s.ran = [⟨7, 0⟩, ⟨8, 1⟩]
      ∧ s.inserted.Nodup ∧ s.ran.Sublist s.inserted
      ∧ ∀ t ∈ s.inserted, t ∉ s.unstacked → t ∈ s.ran := by
  obtain ⟨s, hs, hl, hc, hr⟩ : ∃ s,
      run .bump (init true) collectedEarly = some s ∧ s.leftJoined = true
        ∧ s.collected = [⟨7, 0⟩] ∧ s.ran = [⟨7, 0⟩, ⟨8, 1⟩] :=
    ⟨_, rfl, rfl, rfl, rfl⟩
  obtain ⟨-, -, hnd, -, hsub, -, hall⟩ :=
    tasks_conserved .bump s ⟨true, collectedEarly, hs⟩
  exact ⟨s, hs, hl, hc, hr, hnd, hsub, hall hl⟩

/-- When `pmmpthread_worker_next_task` handles `COLLECT_GARBAGE` the cache
has the connections of the tasks collected since the last handling, in
order, then those of the gc queue. It drops exactly the former. -/
theorem cache_tracks_collections (A : Allocator) (s : Life)
    (h : Reachable A s) (hc : s.child = .nextTask) :
    ∃ x d x', Rep s.data x
      ∧ vals x.cache = s.recent ++ vals x.gc
      ∧ s.recent.length = s.data.tasksCollected
      ∧ s.data.handleGarbage = some (s.recent.map some, d)
      ∧ Rep d x' ∧ x'.gc = x.gc ∧ vals x'.cache = vals x.gc := by
  obtain ⟨x, hi⟩ := h.workerInv
  obtain ⟨d, x', hd, -, hgc, hcache, hi'⟩ := hi.handles hc
  exact ⟨x, d, x', hi.rep, hi.cached hc, hi.recent_length, hd, hi'.rep, hgc,
    hcache⟩

theorem cache_tracks_collections_first : ∃ s,
    run .bump (init true) (collectedEarly.take 22) = some s
      ∧ s.recent = [⟨7, 0⟩] ∧ .collectGarbage ∈ s.state
      ∧ ∃ x d x', Rep s.data x ∧ vals x.cache = s.recent ++ vals x.gc
        ∧ s.data.handleGarbage = some (s.recent.map some, d)
        ∧ Rep d x' ∧ vals x'.cache = vals x.gc := by
  obtain ⟨s, hs, hc, hr, hg⟩ : ∃ s,
      run .bump (init true) (collectedEarly.take 22) = some s
        ∧ s.child = .nextTask ∧ s.recent = [⟨7, 0⟩]
        ∧ .collectGarbage ∈ s.state := ⟨_, rfl, rfl, rfl, by decide⟩
  obtain ⟨x, d, x', hx, hcache, -, hd, hx', -, hgc⟩ :=
    cache_tracks_collections .bump s ⟨true, _, hs⟩ hc
  exact ⟨s, hs, hr, hg, x, d, x', hx, hcache, hd, hx', hgc⟩

/-- A thread that waits without a notification has nothing to do. -/
theorem no_lost_wakeup (A : Allocator) (s : Life) (h : Reachable A s)
    (hw : s.child = .waiting false) :
    s.data.queue.head = none ∧ s.data.queue.size = 0
      ∧ .joined ∉ s.state ∧ .collectGarbage ∉ s.state := by
  obtain ⟨x, hi⟩ := h.workerInv
  obtain ⟨hq, hj, hg⟩ := hi.wait hw
  exact ⟨hi.rep.queue.head_eq_none.mpr hq, hi.rep.queue.size_eq_zero.mpr hq,
    hj, hg⟩

/-- A worker is started without a task. -/
def startedIdle : List LifeAct :=
  [.start, .creator, .create true, .child .ok, .creator]
    ++ List.replicate 7 (.child .ok)

theorem no_lost_wakeup_startedIdle : ∃ s,
    run .bump (init true) startedIdle = some s ∧ s.child = .waiting false
      ∧ s.data.queue.head = none ∧ .joined ∉ s.state
      ∧ .collectGarbage ∉ s.state := by
  obtain ⟨s, hs, hw⟩ : ∃ s,
      run .bump (init true) startedIdle = some s
        ∧ s.child = .waiting false := ⟨_, rfl, rfl⟩
  obtain ⟨hq, -, hj, hg⟩ := no_lost_wakeup .bump s ⟨true, startedIdle, hs⟩ hw
  exact ⟨s, hs, hw, hq, hj, hg⟩

end Life

end PmmpThread.Model
