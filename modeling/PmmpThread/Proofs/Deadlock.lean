/-
The globals lock and the monitors: when two threads can come to wait for
each other.

A read, a sync or a `synchronized` body takes the globals lock with a
monitor held. `pmmpthread_base_free` takes the monitor with the globals
lock held. A run deadlocks if a free takes the globals lock while
another thread is between taking the monitor of that ts_obj and taking
the globals lock, or the other way round; and a run in which no thread
starts into the other's section like that never does.
-/
import PmmpThread.Model.Locks

namespace PmmpThread.Model

open Pthread

/-- A step of thread `t` that does not start into a crossing of the
globals lock and a monitor. -/
def Careful (s : Sched ThreadId Lock) (t : ThreadId) : Prop :=
  ∀ o, s.Orderly (.monitor o) .globals t ∧ s.Orderly .globals (.monitor o) t

/-- No deadlock between the globals lock and a monitor: in every run, of
any number of threads and whatever they do, whose steps are all careful,
no state is reached in which one thread holds a monitor and waits for
the globals lock and another holds the globals lock and waits for that
monitor. -/
theorem no_deadlock_of_careful (acts : ThreadId → Activity)
    (s : Sched ThreadId Lock)
    (h : Relation.ReflTransGen (Sched.Moves Careful) (startAll acts) s)
    (o : TsAddr) (t u : ThreadId) :
    ¬ s.Deadlock (.monitor o) .globals t u := by
  have hne : Lock.monitor o ≠ .globals := fun h => (nomatch h)
  have hnot := Sched.not_crossed_of_moves hne (fun s t hc => hc o)
    (fun _ => rfl) h t u
  exact fun hd => hnot hd.crossed

/-- A step that is not careful is the end for two threads: from then on
each will wait for the other, whatever the rest of the run is. -/
theorem crossed_of_careless {s s' s'' : Sched ThreadId Lock} {t : ThreadId}
    (hstep : s.step t = some s') (hc : ¬ Careful s t)
    (hrun : Relation.ReflTransGen (Sched.Moves fun _ _ => True) s' s'') :
    ∃ o u v, s''.Crossed (.monitor o) .globals u v := by
  unfold Careful at hc
  obtain ⟨o, hc⟩ := Classical.not_forall.mp hc
  rcases Classical.not_and_iff_not_or_not.mp hc with hc | hc
  · obtain ⟨u, hx⟩ := Sched.crossed_of_not_orderly hstep hc
    exact ⟨o, t, u, hx.moves hrun⟩
  · obtain ⟨u, hx⟩ := Sched.crossed_of_not_orderly hstep hc
    have hx' : s'.Crossed (.monitor o) .globals u t :=
      ⟨hx.ne.symm, hx.second, hx.first⟩
    exact ⟨o, u, t, hx'.moves hrun⟩

/-- Thread 1 reads an object through its connection to 1, thread 2 frees
its own. -/
def readAndFree (t : ThreadId) : Activity :=
  match t with
  | 1 => .read 1 [] [false] .done
  | 2 => .free 1 .done
  | _ => .done

theorem careful_of_alone {s : Sched ThreadId Lock} {t : ThreadId}
    (h : ∀ u, u ≠ t → ∀ l, s.depth u l = 0) : Careful s t :=
  fun _ => ⟨fun _ _ _ _ u hu hh => Sched.depth_pos_of_heads hh (h u hu _),
    fun _ _ _ _ u hu hh => Sched.depth_pos_of_heads hh (h u hu _)⟩

/-- The threads when 1 is inside the connect of its read. -/
def insideConnect : Sched ThreadId Lock where
  code := Function.update (startAll readAndFree).code 1
    [.lock .globals, .unlock .globals, .unlock .globals,
      .unlock (.monitor 1)]
  owner := Function.update (Function.update (startAll readAndFree).owner
    (.monitor 1) (some (1, 0))) .globals (some (1, 0))

theorem no_deadlock_of_careful_insideConnect :
    Relation.ReflTransGen (Sched.Moves Careful) (startAll readAndFree)
        insideConnect
      ∧ insideConnect.depth 1 (.monitor 1) = 1
      ∧ insideConnect.depth 1 .globals = 1
      ∧ ¬ insideConnect.Deadlock (.monitor 1) .globals 1 2 := by
  have h1 : ∃ s, (startAll readAndFree).step 1 = some s
      ∧ s.step 1 = some insideConnect
      ∧ s.owner = Function.update (startAll readAndFree).owner (.monitor 1)
        (some (1, 0)) := by
    refine ⟨_, rfl, ?_, rfl⟩
    show some (Sched.mk _ _) = some (Sched.mk _ _)
    rw [Function.update_idem]
    rfl
  obtain ⟨s, hs, hs', hown⟩ := h1
  have hrun : Relation.ReflTransGen (Sched.Moves Careful)
      (startAll readAndFree) insideConnect := by
    refine (Relation.ReflTransGen.refl.tail ⟨1, ?_, hs⟩).tail ⟨1, ?_, hs'⟩
    · refine careful_of_alone fun u hu l => ?_
      unfold Sched.depth
      rw [hown, Function.update_apply]
      split
      · exact Sched.timesBy_other hu.symm 0
      · rfl
    · exact careful_of_alone fun u _ l => rfl
  exact ⟨hrun, rfl, rfl,
    no_deadlock_of_careful readAndFree insideConnect hrun 1 1 2⟩

theorem deadlock_of_read_and_free :
    ¬ ∀ (acts : ThreadId → Activity) (s : Sched ThreadId Lock),
      Relation.ReflTransGen (Sched.Moves fun _ _ => True) (startAll acts) s →
      ∀ (o : TsAddr) (t u : ThreadId),
        ¬ s.Deadlock (.monitor o) .globals t u := by
  intro h
  have hrun : ∃ s s', (startAll readAndFree).step 1 = some s
      ∧ s.step 2 = some s' ∧ s'.Deadlock (.monitor 1) .globals 1 2 :=
    ⟨_, _, rfl, rfl, by decide, by decide, ⟨_, rfl⟩, by decide, ⟨_, rfl⟩⟩
  obtain ⟨s, s', hs, hs', hd⟩ := hrun
  exact h readAndFree s' ((Relation.ReflTransGen.refl.tail
    ⟨1, trivial, hs⟩).tail ⟨2, trivial, hs'⟩) 1 1 2 hd

end PmmpThread.Model
