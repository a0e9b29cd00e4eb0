/-
What a ThreadSafeArray is for: one PHP array that all threads see. The
array a ts_obj stands for forgets slots, cached bounds and where the
bytes of a string are kept; the history of a ts_obj lists the calls that
threads make on its store, each with the entries it took out, in the
order in which they hold its monitor.
-/
import PmmpThread.Zend.OrderedArray
import PmmpThread.Model.Step

namespace PmmpThread.Model

open Zend

-- ========================================================== of a store

namespace Store

variable {V : Type}

/-- `pmmpthread_store_write` with a key or without one. -/
def Op.writing (key : Option Key) (v : V) (compact : Bool) : Op V :=
  match key with
  | some k => .write k v compact
  | none => .append v compact

@[simp] theorem apply_writing (s : Store V) (key : Option Key) (v : V)
    (compact : Bool) :
    s.apply (.writing key v compact) = s.write key v compact := by
  cases key <;> rfl

/-- What a call means for the array; a reset takes nothing. -/
def Op.call : Op V → OrderedArray.Call V
  | .write k v _ => .put k v
  | .append v _ => .push v
  | .delete k => .erase k
  | .shift => .shift
  | .pop => .pop
  | .chunk size => .take size.toNat
  | .merge src overwrite _ => .merge src overwrite
  | .reset => .take 0

/-- The entries a call takes out. -/
def taken (s : Store V) : Op V → List (Key × V)
  | .shift => s.shift.1.toList
  | .pop => s.pop.1.toList
  | .chunk size => (s.chunk size).1
  | _ => []

end Store

-- ========================================================= of a ts_obj

/-- The storage with its string, if it has one, in no particular heap:
what `pmmpthread_store_persist_local_properties` makes of it in the
end. -/
def Storage.plain : Storage → Storage
  | .stringPtr _ _ b => .string false b
  | st => st

/-- The array that a ts_obj stands for. -/
def TsObj.array (o : TsObj) : OrderedArray Storage :=
  o.props.hash.toArray.map Storage.plain

namespace World

/-- The call that a step makes on the store of `s`. -/
def opOn (w : World) (s : TsAddr) : Act → Option (Store.Op Storage)
  | .write c key v =>
      (w.conn c).bind fun x =>
        if x.s = s then
          (w.saveZval x.z.owner v).map fun st => .writing key st true
        else none
  | .delete c k =>
      (w.conn c).bind fun x => if x.s = s then some (.delete k) else none
  | .shift c =>
      (w.conn c).bind fun x => if x.s = s then some .shift else none
  | .pop c => (w.conn c).bind fun x => if x.s = s then some .pop else none
  | .chunk c size =>
      (w.conn c).bind fun x => if x.s = s then some (.chunk size) else none
  | .merge c source overwrite =>
      (w.conn c).bind fun x =>
        if x.s = s then
          (w.conn source).bind fun y =>
            (w.hardCopyAll y.o.props.hash.entries).map fun es =>
              .merge es overwrite fun _ => true
        else none
  | _ => none

/-- The same call on the array of `s`, with the entries it takes out. -/
def callOn (w : World) (s : TsAddr) (act : Act) :
    Option (OrderedArray.Call Storage × List (Key × Storage)) :=
  (w.shared.get s).bind fun o => (w.opOn s act).map fun op =>
    (op.call.map Storage.plain, mapVals Storage.plain (o.props.taken op))

/-- The calls on the array of `s` that a run makes, in order. -/
def history (E : Engine) (s : TsAddr) : World → List Act →
    List (OrderedArray.Call Storage × List (Key × Storage))
  | _, [] => []
  | w, act :: acts =>
      (w.callOn s act).toList
        ++ ((step E w act).map fun u => history E s u acts).getD []

theorem history_cons {E : Engine} {w u : World} {act : Act}
    (h : step E w act = some u) (s : TsAddr) (acts : List Act) :
    history E s w (act :: acts)
      = (w.callOn s act).toList ++ history E s u acts := by
  rw [history, h]
  rfl

-- ====================================================== what PHP code gets

/-- `pmmpthread_copy_closure` throws: `$this` is gone, or the thread does
not have the function. -/
def closureLost (E : Engine) (w : World) (t : ThreadId) (cl : Closure) :
    Bool :=
  cl.thisObj.any (fun a => !w.objectValid a)
    || (cl.fake && !E.functionKnown t cl.body)

/-- Thread `t` gets an exception in place of the value: for an object
that is gone or whose class it cannot initialise, an enum case that it does
not have, or such a closure. -/
def storageLost (E : Engine) (w : World) (t : ThreadId) : Storage → Bool
  | .object a _ => !w.objectValid a || !w.connectable E t a
  | .closure p _ _ => w.closures[p]?.any (w.closureLost E t)
  | .enumCase cls name => !E.enumResolves t cls name
  | _ => false

end World

end PmmpThread.Model
