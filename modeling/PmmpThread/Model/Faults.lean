/-
What a step could touch that is not there: the guard of each step,
the storages that it turns into values, and which of these cannot be.

# Where memory can be gone

A storage behind a pointer names memory of the thread that wrote it. Three
kinds are looked at without a reference being held: a closure its owner
has freed, an object whose address was handed out again to an object that
is still under construction (its `ts_obj` is null), and an enum whose class
the thread does not have, which the error text dereferences. A bound
object that is gone leaves the variable of a copied closure unwritten,
which the next copy and the destructor read.

The names of an enum case that a merge has copied are not looked at here,
an enum case is its names (`Model/SharedStrings.lean` has the pointers).
-/
import PmmpThread.Model.Step

namespace PmmpThread.Model

open Zend

namespace World

/-- `pmmpthread_object_connect` by thread `t` comes to an object of another
thread that has no ts_obj. -/
def unbuilt (w : World) (t : ThreadId) (a : Addr) : Bool :=
  (w.mem.get a).any fun z => decide (z.owner ≠ t) && z.tsObj.isNone

/-- A bound variable that cannot be copied: it was never written, or is
such an object. -/
def useFaults (w : World) (t : ThreadId) : Use Addr → Bool
  | .object a => w.unbuilt t a
  | .null => false
  | .uninit => true

/-- The storage that a read turns into a value: none if the local table has
an answer, and none that an access for writing refuses. -/
def readRestores (w : World) (x : Conn) (k : Key) (access : Access) :
    Option Storage :=
  if ((w.readSync x).cached k).isSome then none
  else (x.o.props.hash.find k).filter fun st =>
    storageIsPmmpthreadObj st || access.readOnly

/-- The storages that `pmmpthread_store_tohash` turns into values. -/
def tohashRestores (w : World) (x : Conn) : List Storage :=
  (uncached (w.syncLocal x.z.owner x.o.props
    (x.z.loc.initProps x.z.declared)) x.o.props.hash).map Prod.snd

end World

/-- The storages that a step turns into values, in order, and the thread. -/
def Act.restores (w : World) : Act → Option (ThreadId × List Storage)
  | .connect t a => some (t, [.object a 0])
  | .read c k access => (w.conn c).map fun x =>
      (x.z.owner, (w.readRestores x k access).toList)
  | .shift c => (w.conn c).map fun x =>
      (x.z.owner, (x.o.props.shift.1.map Prod.snd).toList)
  | .pop c => (w.conn c).map fun x =>
      (x.z.owner, (x.o.props.pop.1.map Prod.snd).toList)
  | .chunk c size => (w.conn c).map fun x =>
      (x.z.owner, (x.o.props.chunk size).1.map Prod.snd)
  | .tohash c _ => (w.conn c).map fun x => (x.z.owner, w.tohashRestores x)
  | _ => none

end PmmpThread.Model
