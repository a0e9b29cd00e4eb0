/-
Copies of functions: `pmmpthread_copy_function_ex` and what it calls
(src/copy.c), with the two tables of the destination thread that keep
copies, `resolve` and `closure_base_op_arrays`.

# Functions

A function is a tree, its `dynamic_func_defs` its children. It has two
addresses: that of the `zend_function`, and that of its opcodes, which a
closure object shares with the definition it was made from. Literals and
arg_info go with the opcodes. What a copy has to keep is the `Code`.

# Memory

Source threads create and destroy functions, and the allocator promises
only that live ones do not overlap: an address may come back with
another function. A copy is kept until the destination's request ends.
`resolve` also has entries of other kinds, under addresses of ts_objs
and of property infos; the table does not tell them apart.

A connection's entry goes with the connection, which holds a reference
on its ts_obj.
-/
import Mathlib.Logic.Function.Basic
import PmmpThread.Zend.Hash

namespace PmmpThread.Model.Functions

abbrev Addr := Nat

/-- `zend_op_array`, less its `dynamic_func_defs`. An internal function has
no opcodes. -/
structure OpArray (Op Lit Sig Val : Type) where
  addr : Addr
  /-- `ZEND_ACC_IMMUTABLE`. -/
  immutable : Bool
  /-- `ZEND_ACC_CLOSURE`. -/
  closure : Bool
  /-- `ZEND_USER_FUNCTION`. -/
  user : Bool
  /-- A `refcount` of NULL: the parts are in shared memory. -/
  shared : Bool
  opcodesAddr : Addr
  opcodes : List Op
  literals : List Lit
  signature : Sig
  staticVariables : Option (List Val)

inductive Function (Op Lit Sig Val : Type) where
  | mk (op : OpArray Op Lit Sig Val) (defs : List (Function Op Lit Sig Val))

/-- What a function does when it is called. -/
inductive Code (Op Lit Sig : Type) where
  | mk (opcodes : List Op) (literals : List Lit) (signature : Sig)
      (defs : List (Code Op Lit Sig))

variable {Op Lit Sig Val : Type}

namespace Function

def op : Function Op Lit Sig Val → OpArray Op Lit Sig Val
  | .mk op _ => op

mutual
def code : Function Op Lit Sig Val → Code Op Lit Sig
  | .mk op defs => .mk op.opcodes op.literals op.signature (codes defs)

def codes : List (Function Op Lit Sig Val) → List (Code Op Lit Sig)
  | [] => []
  | f :: fs => f.code :: codes fs
end

mutual
/-- The function and every definition inside it. -/
def nodes : Function Op Lit Sig Val → List (Function Op Lit Sig Val)
  | .mk op defs => .mk op defs :: nodesOf defs

def nodesOf : List (Function Op Lit Sig Val) →
    List (Function Op Lit Sig Val)
  | [] => []
  | f :: fs => f.nodes ++ nodesOf fs
end

end Function

/-- What is in `resolve`. -/
inductive Resolved (Op Lit Sig Val : Type) where
  | function (copy : Function Op Lit Sig Val)
  | connection (base : Addr)
  | propertyInfo (dup : Addr)

/-- The destination's tables and its next free address. -/
structure Memo (Op Lit Sig Val : Type) where
  resolve : Addr → Option (Resolved Op Lit Sig Val)
  closureBaseOpArrays : Addr → Option (Function Op Lit Sig Val)
  arena : Addr

namespace Memo

/-- `RINIT`. -/
def init : Memo Op Lit Sig Val where
  resolve _ := none
  closureBaseOpArrays _ := none
  arena := 0

/-- The address in the table that a function is looked up under. -/
def keyOf (op : OpArray Op Lit Sig Val) : Addr :=
  if op.closure then op.opcodesAddr else op.addr

def find (m : Memo Op Lit Sig Val) (op : OpArray Op Lit Sig Val) :
    Option (Resolved Op Lit Sig Val) :=
  if op.closure then (m.closureBaseOpArrays (keyOf op)).map .function
  else m.resolve (keyOf op)

/-- `zend_hash_index_add_ptr` for a closure, `zend_hash_index_update_ptr`
for another function. -/
def remember (m : Memo Op Lit Sig Val) (op : OpArray Op Lit Sig Val)
    (copy : Function Op Lit Sig Val) : Memo Op Lit Sig Val :=
  if op.closure then
    match m.closureBaseOpArrays (keyOf op) with
    | some _ => m
    | none =>
        { m with closureBaseOpArrays :=
            Function.update m.closureBaseOpArrays (keyOf op) (some copy) }
  else
    { m with resolve :=
        Function.update m.resolve (keyOf op) (some (.function copy)) }

/-- An entry of another kind, unless there is one. -/
def note (m : Memo Op Lit Sig Val) (a : Addr)
    (r : Resolved Op Lit Sig Val) : Memo Op Lit Sig Val :=
  { m with resolve :=
      Function.update m.resolve a (some ((m.resolve a).getD r)) }

def forget (m : Memo Op Lit Sig Val) (a : Addr) : Memo Op Lit Sig Val :=
  { m with resolve := Function.update m.resolve a none }

/-- The parts of `pmmpthread_copy_user_function` that are the function's
own. -/
def copyOpArray (m : Memo Op Lit Sig Val) (copyStatics : Bool)
    (op : OpArray Op Lit Sig Val) :
    Memo Op Lit Sig Val × OpArray Op Lit Sig Val :=
  ({ m with arena := m.arena + 2 },
    { op with
      addr := m.arena
      opcodesAddr := if op.shared then op.opcodesAddr else m.arena + 1
      staticVariables := if copyStatics then op.staticVariables else none })

/-- `pmmpthread_copy_internal_function`. -/
def copyInternalFunction (m : Memo Op Lit Sig Val)
    (op : OpArray Op Lit Sig Val) :
    Memo Op Lit Sig Val × OpArray Op Lit Sig Val :=
  ({ m with arena := m.arena + 1 }, { op with addr := m.arena })

mutual
/-- `pmmpthread_copy_function_ex`; `none` if what the table has is not a
function. -/
def copyFunctionEx (m : Memo Op Lit Sig Val) (copyStatics : Bool) :
    Function Op Lit Sig Val →
      Option (Memo Op Lit Sig Val × Function Op Lit Sig Val)
  | .mk op defs =>
      if op.immutable then some (m, .mk op defs)
      else
        match m.find op with
        | some (.function copy) => some (m, copy)
        | some (.connection _) | some (.propertyInfo _) => none
        | none =>
            if op.user && !op.shared then
              (copyDynamicFuncDefs m defs).map fun (m, defs) =>
                let (m, op') := m.copyOpArray copyStatics op
                (m.remember op (.mk op' defs), .mk op' defs)
            else
              let (m, op') := if op.user then m.copyOpArray copyStatics op
                else m.copyInternalFunction op
              some (m.remember op (.mk op' defs), .mk op' defs)

/-- `pmmpthread_copy_dynamic_func_defs`. -/
def copyDynamicFuncDefs (m : Memo Op Lit Sig Val) :
    List (Function Op Lit Sig Val) →
      Option (Memo Op Lit Sig Val × List (Function Op Lit Sig Val))
  | [] => some (m, [])
  | f :: fs =>
      (m.copyFunctionEx true f).bind fun (m, copy) =>
        (copyDynamicFuncDefs m fs).map fun (m, copies) =>
          (m, copy :: copies)
end

end Memo

-- ========================================================= function tables

open Zend in
/-- One round of `pmmpthread_prepare_functions` (src/prepare.c). -/
def prepareFunction
    (p : Memo Op Lit Sig Val × HashTable (Function Op Lit Sig Val))
    (e : Key × Function Op Lit Sig Val) :
    Option (Memo Op Lit Sig Val × HashTable (Function Op Lit Sig Val)) :=
  if !e.2.op.user || p.2.contains e.1 then some p
  else
    (p.1.copyFunctionEx true e.2).map fun r =>
      (r.1, p.2.update true e.1 r.2)

open Zend in
/-- `pmmpthread_prepare_functions`: the creator's function table and the
thread's. -/
def prepareFunctions (creator : HashTable (Function Op Lit Sig Val))
    (p : Memo Op Lit Sig Val × HashTable (Function Op Lit Sig Val)) :
    Option (Memo Op Lit Sig Val × HashTable (Function Op Lit Sig Val)) :=
  creator.entries.foldlM prepareFunction p

-- ================================================================ histories

/-- The live functions of all source threads and the destination's
tables. -/
structure State (Op Lit Sig Val : Type) where
  live : List (Function Op Lit Sig Val)
  memo : Memo Op Lit Sig Val

namespace State

def init : State Op Lit Sig Val where
  live := []
  memo := .init

/-- Every function in live memory, definitions inside others included. -/
def functions (s : State Op Lit Sig Val) : List (Function Op Lit Sig Val) :=
  Function.nodesOf s.live

end State

/-- What the allocator and the engine's reference counts promise of two
live functions: one address has one function, and one opcode array of
closures has one code. -/
structure Compatible (f g : Function Op Lit Sig Val) : Prop where
  addr : f.op.addr = g.op.addr → f = g
  opcodes : f.op.closure = true → g.op.closure = true →
    f.op.opcodesAddr = g.op.opcodesAddr → f.code = g.code

inductive Event (Op Lit Sig Val : Type) where
  /-- A source thread compiles a function or makes a closure object. -/
  | create (f : Function Op Lit Sig Val)
  /-- A source thread destroys one, or exits. -/
  | destroy (live : List (Function Op Lit Sig Val))
  | copy (f : Function Op Lit Sig Val) (copyStatics : Bool)
  /-- The destination's other uses of `resolve`. -/
  | connect (ts base : Addr)
  | disconnect (ts base : Addr)
  | copyPropertyInfo (info dup : Addr)
  /-- The destination's request ends and the next one begins. -/
  | newRequest

inductive Step : State Op Lit Sig Val → Event Op Lit Sig Val →
    State Op Lit Sig Val → Prop
  | create {s : State Op Lit Sig Val} {f : Function Op Lit Sig Val}
      (hfree : ∀ g ∈ f.nodes, ∀ h ∈ f.nodes ++ s.functions, Compatible g h) :
      Step s (.create f) { s with live := f :: s.live }
  | destroy {s : State Op Lit Sig Val}
      {live : List (Function Op Lit Sig Val)} (hsub : live ⊆ s.live) :
      Step s (.destroy live) { s with live := live }
  | copy {s : State Op Lit Sig Val} {f copied : Function Op Lit Sig Val}
      {copyStatics : Bool} {m : Memo Op Lit Sig Val}
      (hlive : f ∈ s.functions)
      (h : s.memo.copyFunctionEx copyStatics f = some (m, copied)) :
      Step s (.copy f copyStatics) { s with memo := m }
  | connect {s : State Op Lit Sig Val} {ts base : Addr}
      (hfree : ∀ f ∈ s.functions, f.op.addr ≠ ts) :
      Step s (.connect ts base)
        { s with memo := s.memo.note ts (.connection base) }
  | disconnect {s : State Op Lit Sig Val} {ts base : Addr}
      (h : s.memo.resolve ts = some (.connection base)) :
      Step s (.disconnect ts base) { s with memo := s.memo.forget ts }
  | copyPropertyInfo {s : State Op Lit Sig Val} {info dup : Addr}
      (hfree : ∀ f ∈ s.functions, f.op.addr ≠ info) :
      Step s (.copyPropertyInfo info dup)
        { s with memo := s.memo.note info (.propertyInfo dup) }
  | newRequest {s : State Op Lit Sig Val} :
      Step s .newRequest { s with memo := .init }

/-- A run whose steps all meet a condition on the state before. -/
inductive Run
    (ok : State Op Lit Sig Val → Event Op Lit Sig Val → Prop) :
    State Op Lit Sig Val → List (Event Op Lit Sig Val) →
      State Op Lit Sig Val → Prop
  | nil {s : State Op Lit Sig Val} : Run ok s [] s
  | cons {s u s' : State Op Lit Sig Val} {e : Event Op Lit Sig Val}
      {es : List (Event Op Lit Sig Val)} (hok : ok s e) (h : Step s e u)
      (hrest : Run ok u es s') : Run ok s (e :: es) s'

end PmmpThread.Model.Functions
