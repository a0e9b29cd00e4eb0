/-
The life of one Thread or Worker: its creator's calls
(`pmmpthread_start`, `pmmpthread_join`, the destructor, `Worker::stack`,
`unstack` and `collect`) and the thread that runs `pmmpthread_routine`
(src/routine.c, src/worker.c, src/object.c, classes/worker.c).

# Steps

A step is what one of the two threads does between taking and releasing
the monitor of the object, or between two such sections. Between the
steps the other thread may run. All calls here are refused outside the
creator thread, so there is one creator and it does one thing at a time.

# Waiting

`pthread_cond_wait` may return without a reason. A thread in
`pmmpthread_monitor_wait_until` tests the state again each time, so that
its turn either finds the flag or changes nothing. For the wait in
`pmmpthread_worker_next_task` the state also says whether a notification
has arrived since.

# Bailouts

A fatal error leaves the code for the nearest `zend_try`. Where PHP code
or class copying runs, the step has an outcome for it. A bailout out of
the destructor of a cached connection, inside
`pmmpthread_worker_next_task`, leaves the monitor locked (`held`).
-/
import PmmpThread.Zend.Foreach
import PmmpThread.Model.Worker

namespace PmmpThread.Model

open Zend

/-- Where the creator is. -/
inductive CreatorPc where
  /-- PHP code. -/
  | user
  /-- `pmmpthread_start`; `before` is the state word at the call. -/
  | starting (before : MonitorState)
  | creating (before : MonitorState)
  | createFailed (before : MonitorState)
  | awaitReady
  /-- `pmmpthread_join`. -/
  | joinBegin
  | joinChecked
  | joinStarted
  | awaitJoin
  | syncThread
  | syncTasks
  | syncGlobals
  | setExit
  | pthreadJoin
  | joining
  /-- `Worker::stack` between its check and the insertion. -/
  | stacking (object : Addr)
  /-- `pmmpthread_base_dtor` between its two checks. -/
  | dtorStarted
  deriving DecidableEq

/-- How far the destructor of the object has come; in `userJoin` the
`join` method of its class runs. -/
inductive DtorPhase where
  | before
  | userJoin
  | done
  deriving DecidableEq, Repr

/-- Where the thread is. -/
inductive ChildPc where
  | absent
  | startup
  | connectThis
  /-- `pmmpthread_routine_run_function` on the thread object. -/
  | runCheck
  | runAdd
  | runBody
  | runError
  | runDrop (ok : Bool)
  | runRemove (ok : Bool)
  /-- The loop of a Worker. -/
  | nextTask
  | waiting (notified : Bool)
  | connectTask (task : Task)
  | runTask (task : Task)
  | taskError (task : Task)
  | garbage (task : Task) (ok : Bool)
  | cachePush (task : Task) (ok : Bool)
  | dropConnection (ok : Bool)
  /-- After the `zend_try`. -/
  | shutdownFunctions
  | setAwaitJoin
  | awaitExit
  | releaseThis
  | cleanCache
  | shutdown
  | exited
  deriving DecidableEq

/-- How a piece of PHP code or class copying ends: it succeeds, fails
inside its own `zend_try`, leaves for the enclosing one, or a task is
refused because its own monitor has `ERROR`. -/
inductive Outcome where
  | ok
  | fail
  | bail
  | refuse
  deriving DecidableEq, Repr

/-- A Thread or Worker object with its thread. The last block is history
that the code does not keep: the calls of `pthread_create` that
succeeded and of `pthread_join`, what the join has synced, whether the
loop was left on `JOINED`, what became of the tasks, and how many were
collected when the thread last handled `COLLECT_GARBAGE`. -/
structure Life where
  worker : Bool
  data : WorkerData
  state : MonitorState
  held : Bool
  ready : Bool
  creator : CreatorPc
  dtor : DtorPhase
  child : ChildPc
  creates : Nat
  joins : Nat
  syncedThread : Bool
  syncedTasks : Bool
  syncedGlobals : Bool
  leftJoined : Bool
  inserted : List Task
  unstacked : List Task
  collected : List Task
  ran : List Task
  handled : Nat

inductive LifeAct where
  /-- Calls of PHP code on the creator thread. -/
  | start
  | join
  | stack (object : Addr)
  | unstack
  | collect (answers : List Bool)
  /-- The destructor, and the return of the user's `join` in it. -/
  | destruct
  | dtorReturn
  /-- How `pthread_create` ends. -/
  | create (ok : Bool)
  /-- The creator goes on in its call, or is thrown out of a sync. -/
  | creator
  | creatorBail
  /-- The thread goes on. -/
  | child (o : Outcome)
  /-- The destructor of the cached connection number `i` bails out. -/
  | bailInDrop (i : Nat)
  /-- The thread returns from the condition wait. -/
  | wake
  /-- `ThreadSafe::notify` or `notifyOne` by anyone. -/
  | notify (reaches : Bool)

namespace Life

def init (worker : Bool) : Life where
  worker
  data := .alloc
  state := ∅
  held := false
  ready := false
  creator := .user
  dtor := .before
  child := .absent
  creates := 0
  joins := 0
  syncedThread := false
  syncedTasks := false
  syncedGlobals := false
  leftJoined := false
  inserted := []
  unstacked := []
  collected := []
  ran := []
  handled := 0

/-- `pmmpthread_monitor_notify`. -/
def notifyAll (s : Life) : Life :=
  match s.child with
  | .waiting _ => { s with child := .waiting true }
  | _ => s

/-- `pmmpthread_monitor_add`. -/
def monitorAdd (s : Life) (f : Flag) : Life :=
  { s with state := s.state.add f }.notifyAll

/-- `pmmpthread_monitor_remove`. -/
def monitorRemove (s : Life) (f : Flag) : Life :=
  { s with state := s.state.remove f }.notifyAll

-- ============================================================ creator

/-- `pmmpthread_worker_add_task` of the task that is being stacked. -/
def addTask (A : Allocator) (s : Life) (object : Addr) : Option Life :=
  let v : Task := ⟨object, s.inserted.length⟩
  (s.data.addTask A v).map fun r =>
    let s := { s with data := r.2, inserted := s.inserted ++ [v] }
    if r.1 then s.notifyAll else s

/-- The next step of the call that the creator is in. -/
def creatorStep (A : Allocator) (s : Life) : Option Life :=
  match s.creator with
  | .user | .creating _ => none
  | .starting before =>
      some { s.monitorAdd .started with creator := .creating before }
  | .createFailed _ =>
      some { s.monitorRemove .started with creator := .user }
  | .awaitReady =>
      some (if s.ready then { s with creator := .user } else s)
  | .joinBegin =>
      some { s with creator :=
        if s.state.check [.joined] then .user else .joinChecked }
  | .joinChecked =>
      some { s with creator :=
        if s.state.check [.started] then .joinStarted else .user }
  | .joinStarted =>
      some { s.monitorAdd .joined with creator := .awaitJoin }
  | .awaitJoin =>
      some (if s.state.check [.awaitJoin] then
        { s with creator := .syncThread } else s)
  | .syncThread =>
      some { s with syncedThread := true, creator := .syncTasks }
  | .syncTasks =>
      some { s with syncedTasks := true, creator := .syncGlobals }
  | .syncGlobals =>
      some { s with syncedGlobals := true, creator := .setExit }
  | .setExit =>
      some { s.monitorAdd .exit with creator := .pthreadJoin }
  | .pthreadJoin =>
      some { s with joins := s.joins + 1, creator := .joining }
  | .joining =>
      if s.child = .exited then some { s with creator := .user } else none
  | .stacking object =>
      (s.addTask A object).map fun s => { s with creator := .user }
  | .dtorStarted =>
      some { s with
        creator := .user
        dtor := if s.state.check [.joined] then .done else .userJoin }

/-- `Worker::collect`. -/
def collect (s : Life) (answers : List Bool) : Option (Int × Life) :=
  (s.data.collectTasks answers).map fun r =>
    let s := { s with data := r.2.2, collected := s.collected ++ r.2.1 }
    (r.1, if r.2.1.isEmpty then s else s.monitorAdd .collectGarbage)

/-- `Worker::unstack`. -/
def unstack (s : Life) : Option Life :=
  s.data.dequeueTask.map fun r =>
    { s with data := r.2, unstacked := s.unstacked ++ r.1.toList }

-- ============================================================= thread

/-- `pmmpthread_worker_next_task` with the monitor held, up to its
return or its wait. -/
def nextTask (s : Life) : Option Life :=
  (if s.state.check [.collectGarbage] then
    s.data.handleGarbage.map fun r =>
      { s with data := r.2, handled := s.collected.length }.monitorRemove
        .collectGarbage
  else some s).bind fun s =>
    match s.data.queue.head with
    | none =>
        if s.state.check [.joined] then
          some { s with child := .shutdownFunctions, leftJoined := true }
        else some { s with child := .waiting false }
    | some _ => s.data.takeTask.bind fun r => r.1.map fun v =>
        { s with data := r.2, child := .connectTask v }

/-- The next step of `pmmpthread_routine`. -/
def childStep (A : Allocator) (s : Life) (o : Outcome) : Option Life :=
  match s.child with
  | .absent | .waiting _ | .exited => none
  | .startup => some { s with ready := true, child := .connectThis }
  | .connectThis =>
      some { s with child :=
        if o = .bail then .shutdownFunctions else .runCheck }
  | .runCheck =>
      some { s with child :=
        if s.state.check [.error] then .shutdownFunctions else .runAdd }
  | .runAdd => some { s.monitorAdd .running with child := .runBody }
  | .runBody =>
      some { s with child := if o = .ok then .runDrop true else .runError }
  | .runError => some { s.monitorAdd .error with child := .runDrop false }
  | .runDrop ok =>
      some { s with child :=
        if o = .bail then .shutdownFunctions else .runRemove ok }
  | .runRemove ok =>
      some { s.monitorRemove .running with child :=
        if ok && s.worker then .nextTask else .shutdownFunctions }
  | .nextTask => s.nextTask
  | .connectTask v =>
      some { s with child :=
        if o = .bail then .shutdownFunctions else .runTask v }
  | .runTask v =>
      some { s with
        ran := if o = .refuse then s.ran else s.ran ++ [v]
        child := match o with
          | .ok => .garbage v true
          | .bail => .shutdownFunctions
          | _ => .taskError v }
  | .taskError v => some { s.monitorAdd .error with child := .garbage v false }
  | .garbage v ok =>
      s.data.addGarbage.map fun d =>
        { { s with data := d }.notifyAll with child := .cachePush v ok }
  | .cachePush v ok =>
      if o = .bail then some { s with child := .shutdownFunctions }
      else (s.data.cacheDone A v).map fun d =>
        { s with data := d, child := .dropConnection ok }
  | .dropConnection ok =>
      some { s with child :=
        if o ≠ .bail ∧ ok then .nextTask else .shutdownFunctions }
  | .shutdownFunctions => some { s with child := .setAwaitJoin }
  | .setAwaitJoin =>
      some { s.monitorAdd .awaitJoin with child := .awaitExit }
  | .awaitExit =>
      some (if s.state.check [.exit] then { s with child := .releaseThis }
        else s)
  | .releaseThis =>
      some { s with child := if o = .bail then .shutdown else .cleanCache }
  | .cleanCache => some { s with child := .shutdown }
  | .shutdown => some { s with child := .exited }

/-- A bailout out of `pmmpthread_worker_next_task`: `i` connections were
dropped, the next one is off the queue but its item is not freed. -/
def bailInDrop (s : Life) (i : Nat) : Option Life :=
  if s.child = .nextTask ∧ s.state.check [.collectGarbage]
      ∧ i < s.data.tasksCollected then
    (s.data.dropCached i).bind fun r =>
      (Queue.shift r.2.items r.2.doneTasksCache false).map fun c =>
        { s with
          data := { r.2 with items := c.2.1, doneTasksCache := c.2.2 }
          held := true
          child := .shutdownFunctions }
  else none

/-- One step; `none` when it is not its turn, or on a fault. -/
def step (A : Allocator) (s : Life) : LifeAct → Option Life
  | .start =>
      if s.creator = .user ∧ s.held = false then
        some (if s.state.check [.started] then s
          else { s with creator := .starting s.state })
      else none
  | .join =>
      if s.creator = .user ∧ s.held = false then
        some (if s.state.check [.joined] then s
          else { s with creator := .joinChecked })
      else none
  | .stack object =>
      if s.creator = .user ∧ s.held = false ∧ s.worker = true then
        some (if s.state.check [.error, .awaitJoin, .joined] then s
          else { s with creator := .stacking object })
      else none
  | .unstack =>
      if s.creator = .user ∧ s.held = false ∧ s.worker = true then s.unstack
      else none
  | .collect answers =>
      if s.creator = .user ∧ s.held = false ∧ s.worker = true then
        (s.collect answers).map Prod.snd
      else none
  | .destruct =>
      if s.creator = .user ∧ s.held = false ∧ s.dtor = .before then
        some (if s.state.check [.started] then
          { s with creator := .dtorStarted }
        else { s with dtor := .done })
      else none
  | .dtorReturn =>
      if s.creator = .user ∧ s.held = false ∧ s.dtor = .userJoin then
        some { s with
          dtor := .done
          creator := if s.state.check [.joined] then .user else .joinBegin }
      else none
  | .create ok =>
      match s.creator with
      | .creating before =>
          some (if ok then
            { s with
              child := .startup
              creates := s.creates + 1
              creator := .awaitReady }
          else { s with creator := .createFailed before })
      | _ => none
  | .creator =>
      if s.held = false ∨ s.creator = .awaitReady then s.creatorStep A
      else none
  | .creatorBail =>
      if s.creator = .syncThread ∨ s.creator = .syncTasks
          ∨ s.creator = .syncGlobals then
        some { s with creator := .user }
      else none
  | .child o => s.childStep A o
  | .bailInDrop i => s.bailInDrop i
  | .wake =>
      match s.child with
      | .waiting _ => some { s with child := .nextTask }
      | _ => none
  | .notify reaches => some (if reaches then s.notifyAll else s)

/-- The state after a sequence of steps. -/
def run (A : Allocator) (s : Life) (acts : List LifeAct) : Option Life :=
  acts.foldlM (step A) s

/-- A state that some run reaches. -/
def Reachable (A : Allocator) (s : Life) : Prop :=
  ∃ worker acts, run A (init worker) acts = some s

/-- What a step with a guard does. -/
theorem step_checked {p : Prop} [Decidable p] {x : Option Life} {s' : Life}
    (h : (if p then x else none) = some s') : p ∧ x = some s' :=
  Option.ite_none_right_eq_some.mp h

theorem step_guarded {p : Prop} [Decidable p] {u s' : Life}
    (h : (if p then some u else none) = some s') : p ∧ s' = u := by
  obtain ⟨hp, h⟩ := step_checked h
  exact ⟨hp, (Option.some.inj h).symm⟩

theorem step_create {A : Allocator} {s s' : Life} {ok : Bool}
    (h : step A s (.create ok) = some s') :
    ∃ before, s.creator = .creating before
      ∧ s' = if ok then
          { s with
            child := .startup
            creates := s.creates + 1
            creator := .awaitReady }
        else { s with creator := .createFailed before } := by
  simp only [step] at h
  split at h
  · next before hc => exact ⟨before, hc, (Option.some.inj h).symm⟩
  · cases h

theorem step_wake {A : Allocator} {s s' : Life}
    (h : step A s .wake = some s') :
    ∃ n, s.child = .waiting n ∧ s' = { s with child := .nextTask } := by
  simp only [step] at h
  split at h
  · next n hc => exact ⟨n, hc, (Option.some.inj h).symm⟩
  · cases h

/-- What every step with a property keeps holds after every run of such
steps. -/
theorem run_induct {A : Allocator} {P : Life → LifeAct → Prop}
    {I : Life → Prop} (hstep : ∀ s act s', I s → P s act →
      step A s act = some s' → I s') :
    ∀ (acts : List LifeAct) {s s' : Life}, I s →
      (∀ pre act post u, acts = pre ++ act :: post →
        run A s pre = some u → P u act) →
      run A s acts = some s' → I s' := by
  intro acts s s' hi hp hr
  refine foldlM_rounds (P := fun _ => I) acts hi ?_ hr
  intro pre act post u u' hacts hu hiu hs
  exact hstep u act u' hiu (hp pre act post u hacts hu) hs

/-- A property of the initial states that every step keeps holds of
every reachable state. -/
theorem Reachable.induct {A : Allocator} {I : Life → Prop}
    (h0 : ∀ worker, I (init worker))
    (hstep : ∀ s act s', I s → step A s act = some s' → I s') {s : Life}
    (h : Reachable A s) : I s := by
  obtain ⟨worker, acts, hacts⟩ := h
  exact foldlM_induct acts (fun _ hi hs => hstep _ _ _ hi hs) (h0 worker) hacts

end Life

end PmmpThread.Model
