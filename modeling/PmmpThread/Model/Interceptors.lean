/-
The magic methods of a class copy: `prepare_class_interceptors`
(src/prepare.c), which `pmmpthread_complete_entry` calls once the function
table is there.

The slots of a class entry are not copied. They are found again in the
copied function table, by a list of names. A class may be completed more
than once, each time with the function table it has by then: a copy made
before the class was linked is completed again when it is. A slot that has
been set stays.

A copied function is named by what it is a copy of. The functions of
`iterator_funcs_ptr` and `arrayaccess_funcs_ptr`, found in the same way,
are left out.
-/
import PmmpThread.Model.Classes

namespace PmmpThread.Model.Classes

/-- The slots of a `zend_class_entry` for magic methods. -/
inductive Interceptor where
  | constructor | destructor | clone
  | get | set | unset | isset | call | callstatic
  | tostring | debugInfo | serialize | unserialize
  deriving DecidableEq, Repr

/-- The key of a name in a function table. -/
def ascii (s : String) : Bytes := s.toList.map fun c => .ofNat c.toNat

namespace Interceptor

/-- The method of the slot, in lower case: the names that PHP fills the
slots by. -/
def name : Interceptor → Bytes
  | constructor => ascii "__construct"
  | destructor => ascii "__destruct"
  | clone => ascii "__clone"
  | get => ascii "__get"
  | set => ascii "__set"
  | unset => ascii "__unset"
  | isset => ascii "__isset"
  | call => ascii "__call"
  | callstatic => ascii "__callstatic"
  | tostring => ascii "__tostring"
  | debugInfo => ascii "__debuginfo"
  | serialize => ascii "__serialize"
  | unserialize => ascii "__unserialize"

end Interceptor

/-- A `function_table`, in order. -/
abbrev FunctionTable := List (Bytes × FuncId)

/-- The slots that are set. -/
abbrev Slots := Interceptor → Option FuncId

/-- `prepare_class_function_table`. -/
def prepareFunctionTable (candidate prepared : FunctionTable) :
    FunctionTable :=
  candidate.foldl
    (fun t e => if t.any fun f => f.1 == e.1 then t else t ++ [e]) prepared

/-- Set a slot that is not set, if there is a function for it. -/
def setSlot (slots : Slots) (f : Interceptor) (func : Option FuncId) :
    Slots :=
  match slots f with
  | some _ => slots
  | none => Function.update slots f func

/-- The macro `FIND_AND_SET`. -/
def findAndSet (t : FunctionTable) (slots : Slots) (f : Interceptor) : Slots :=
  if t.length = 0 then slots else setSlot slots f (t.lookup f.name)

/-- The uses of `FIND_AND_SET`. -/
def findList : List Interceptor :=
  [.clone, .get, .set, .unset, .isset, .call, .callstatic, .serialize,
    .unserialize, .tostring, .destructor]

/-- The constructor: the method of that name, or else the one that is
stored under the name of the class. -/
def findConstructor (name : Bytes) (t : FunctionTable) (slots : Slots) :
    Slots :=
  if t.length = 0 then slots
  else setSlot slots .constructor
    ((t.lookup Interceptor.constructor.name).or (t.lookup name))

/-- `prepare_class_interceptors`. -/
def prepareClassInterceptors (name : Bytes) (t : FunctionTable)
    (slots : Slots) : Slots :=
  findList.foldl (findAndSet t) (findConstructor name t slots)

/-- What a copy of a class has of methods. -/
structure Methods where
  functionTable : FunctionTable
  slots : Slots

namespace Methods

/-- `zend_initialize_class_data`. -/
def init : Methods where
  functionTable := []
  slots _ := none

/-- `pmmpthread_complete_entry` for a class with the function table
`candidate`. -/
def complete (name : Bytes) (m : Methods) (candidate : FunctionTable) :
    Methods :=
  let t := prepareFunctionTable candidate m.functionTable
  ⟨t, prepareClassInterceptors name t m.slots⟩

/-- A copy that has been completed with each of the tables. -/
def passes (name : Bytes) (m : Methods) (candidates : List FunctionTable) :
    Methods :=
  candidates.foldl (complete name) m

end Methods

end PmmpThread.Model.Classes
