/-
Monitors only: when threads that merge ThreadSafeArrays and fully sync
their objects can come to wait for each other.

Both operations take monitors in the order the data gives them: a merge
the destination and then the source, a full sync each object before those
it contains, and both take those of the connections that they drop. Two
threads that merge two arrays into each other wait for
each other for good. A set of threads can only come to that by a step that
takes a monitor on the way to another one from which a chain of holders
leads back (`Sched.Untangled`), and there is no way out after such a step.
-/
import PmmpThread.Pthread.Knot
import PmmpThread.Model.Monitors

namespace PmmpThread.Model

open Pthread

/-- A step that is not untangled is the end for some threads: from then on
there are mutexes whose holders will wait for each other, whatever the
rest of the run is. -/
theorem knot_of_tangled_step {s s' s'' : Sched ThreadId Lock} {t : ThreadId}
    (hstep : s.step t = some s') (ht : ¬ s.Untangled t)
    (hrun : Relation.ReflTransGen (Sched.Moves fun _ _ => True) s' s'') :
    ∃ K, s''.Knot K := by
  obtain ⟨K, hk⟩ := Sched.knot_of_tangled hstep ht
  exact ⟨K, hk.moves hrun⟩

end PmmpThread.Model
