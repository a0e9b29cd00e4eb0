/-
Copying a class, a closure or a value onto another thread: which locks it
takes and where it raises a fatal error (src/copy.c, src/prepare.c).

# The tree of a copy

Classes refer to each other, and a copy stops at what the thread has
already. As with `SyncTree`, a copy is the tree of what it comes to, each
thing as it is found: a class in the class table, an address that is no
object any more, an enum that does not have the case. `Work` is what is
copied one after the other. The functions below say, under the source's
names, in which order a class, a function or a closure is gone through,
and which values it cannot do without: a class constant, a literal or an
attribute argument that is not copied is a fatal error (`E_CORE_ERROR`),
while an element of an array, a static or a default is left out.

# What is left out

The copies themselves. Only what decides about locks and errors is there.
-/
import PmmpThread.Model.Locks
import PmmpThread.Zend.Bailout

namespace PmmpThread.Model.Copy

open Zend.Bailout

mutual
/-- A zval, as `pmmpthread_copy_zval` comes to it. -/
inductive Zval where
  /-- null, a boolean, a number or a string. -/
  | scalar
  /-- `IS_INDIRECT` or `IS_REFERENCE`. -/
  | reference (referent : Zval)
  | array (elements : Work)
  /-- A thread-safe object. -/
  | object (o : Found)
  /-- The two results of `copyClosure`, which is silent here. -/
  | closure (work : Work) (copied : Bool)
  /-- `present` if the prepared enum has the case. -/
  | enumCase (ce : Entry) (present : Bool)
  | constantAst (leaves : Work)
  /-- A resource, or an object that is not thread-safe. -/
  | other

/-- What `pmmpthread_object_connect` finds at an address. -/
inductive Found where
  /-- No object any more. -/
  | gone
  /-- An object of this thread, or one it is connected to. -/
  | here
  /-- An object of a class that has to be prepared; `limit` if the engine
  cannot make the connection (`memory_limit`). -/
  | fresh (ce : Entry) (limit : Bool)

/-- A class, as `pmmpthread_create_entry` comes to it. -/
inductive Entry where
  | known
  | copied (work : Work)

/-- What is copied one after the other. A `required` value that is not
copied is a fatal error. -/
inductive Work where
  | done
  | value (required : Bool) (v : Zval) (next : Work)
  | connect (o : Found) (next : Work)
  | entry (ce : Entry) (next : Work)
  | throws (next : Work)
end

/-- Whether `pmmpthread_copy_zval` returns `SUCCESS`. -/
def Zval.copied : Zval → Bool
  | .reference referent => referent.copied
  | .closure _ copied => copied
  | .enumCase _ present => present
  | .other => false
  | .scalar | .array _ | .object _ | .constantAst _ => true

/-- `pmmpthread_globals_object_valid`, `pmmpthread_globals_object_alloc`,
`pmmpthread_connect`. -/
def globalsLookup : List (Instr Lock) := guarded .globals []

mutual
/-- `pmmpthread_copy_zval`. -/
def Zval.code : Zval → List (Instr Lock)
  | .scalar => []
  | .reference referent => referent.code
  | .array elements => elements.code
  | .object o => o.code
  | .closure work _ => work.code
  | .enumCase ce present => ce.code ++ if present then [] else [.throw]
  | .constantAst leaves => leaves.code
  | .other => []

/-- `pmmpthread_object_connect`. -/
def Found.code : Found → List (Instr Lock)
  | .gone => guarded .globals globalsLookup
  | .here => guarded .globals globalsLookup
  | .fresh ce limit =>
      guarded .globals (globalsLookup ++ (ce.code
        ++ ((if limit then [.fatal] else [])
          ++ (globalsLookup ++ globalsLookup))))

/-- `pmmpthread_prepare_single_class`. -/
def Entry.code : Entry → List (Instr Lock)
  | .known => []
  | .copied work => work.code

def Work.code : Work → List (Instr Lock)
  | .done => []
  | .value required v next =>
      v.code ++ ((if required && !v.copied then [.fatal] else [])
        ++ next.code)
  | .connect o next => o.code ++ next.code
  | .entry ce next => ce.code ++ next.code
  | .throws next => .throw :: next.code
end

-- ========================================================= what is copied

def Work.append : Work → Work → Work
  | .done, w => w
  | .value required v next, w => .value required v (next.append w)
  | .connect o next, w => .connect o (next.append w)
  | .entry ce next, w => .entry ce (next.append w)
  | .throws next, w => .throws (next.append w)

instance : Append Work := ⟨Work.append⟩

def Work.concat (ws : List Work) : Work := ws.foldr (· ++ ·) .done

def Work.values (required : Bool) (vs : List Zval) : Work :=
  vs.foldr (.value required) .done

def Work.entries (ces : List Entry) : Work := ces.foldr .entry .done

/-- `pmmpthread_copy_attributes`: the arguments of the attributes. -/
def copyAttributes (arguments : List Zval) : Work := .values true arguments

/-- `pmmpthread_copy_literals`; a hole is `none`. -/
def copyLiterals (literals : List (Option Zval)) : Work :=
  .values true literals.reduceOption

/-- `pmmpthread_copy_statics`. -/
def copyStatics (statics : List Zval) : Work := .values false statics

inductive Function where
  /-- Immutable, internal or copied before. -/
  | kept
  /-- A user function; `shm` if it is in shared memory, where only its
  statics are copied. -/
  | user (shm : Bool) (literals : List (Option Zval))
      (attributes : List Zval) (dynamicFuncDefs : List Function)
      (statics : List Zval)

mutual
/-- `pmmpthread_copy_function_ex`. -/
def copyFunctionEx (copyStaticVariables : Bool) : Function → Work
  | .kept => .done
  | .user shm literals attributes dynamicFuncDefs statics =>
      (if shm then .done
        else copyLiterals literals ++ copyAttributes attributes
          ++ copyFunctions dynamicFuncDefs)
        ++ if copyStaticVariables then copyStatics statics else .done

/-- `pmmpthread_copy_function` of one after the other:
`pmmpthread_copy_dynamic_func_defs`, `prepare_class_function_table`. -/
def copyFunctions : List Function → Work
  | [] => .done
  | f :: fs => copyFunctionEx true f ++ copyFunctions fs
end

inductive Callee where
  /-- A first-class callable of a method; `found` if the prepared class has
  the method. -/
  | method (origin : Entry) (found : Bool)
  /-- A first-class callable of a function. -/
  | function (found : Bool)
  | closure (statics boundStatics : List Zval) (func : Function)

structure Closure where
  this : Option Found
  callee : Callee
  scope : Entry
  calledScope : Entry

/-- `pmmpthread_copy_closure`, and whether it returns `SUCCESS`. A failure
throws unless `silent`. -/
def copyClosure (silent : Bool) (c : Closure) : Work × Bool :=
  let failed : Work := if silent then .done else .throws .done
  let scopes : Work := .entry c.scope (.entry c.calledScope .done)
  match c.this with
  | some .gone => (.connect .gone failed, false)
  | this =>
      let bound : Work := match this with
        | some o => .connect o .done
        | none => .done
      match c.callee with
      | .method origin found =>
          (bound ++ .entry origin (if found then scopes else failed), found)
      | .function found =>
          (bound ++ if found then scopes else failed, found)
      | .closure statics boundStatics func =>
          (bound ++ copyStatics statics ++ copyStatics boundStatics
            ++ copyFunctionEx false func ++ scopes, true)

structure ClassConstant where
  /-- It is in the prepared class already. -/
  present : Bool
  /-- A resolved case of an enum, with the value that backs it. -/
  enumCase : Option (Option Zval)
  value : Zval
  ce : Entry
  attributes : List Zval

/-- One round of `prepare_class_constants`. -/
def prepareClassConstant (c : ClassConstant) : Work :=
  if c.present then .done
  else
    (match c.enumCase with
      | some backing => .values false backing.toList
      | none => .value true c.value .done)
      ++ .entry c.ce (copyAttributes c.attributes)

def prepareClassConstants (cs : List ClassConstant) : Work :=
  .concat (cs.map prepareClassConstant)

structure PropertyInfo where
  /-- It was copied before. -/
  known : Bool
  ce : Entry
  attributes : List Zval
  /-- `copy_property_info` of the prototype. -/
  prototype : Work
  /-- The hooks: the function, `copy_property_info` of the property it
  belongs to, and the class that is its scope. -/
  hooks : List (Function × Work × Entry)

/-- `copy_property_info`. -/
def copyPropertyInfo (p : PropertyInfo) : Work :=
  if p.known then .done
  else
    .entry p.ce (copyAttributes p.attributes) ++ p.prototype
      ++ .concat (p.hooks.map fun (f, info, scope) =>
        copyFunctionEx true f ++ info ++ .entry scope .done)

structure ClassEntry where
  attributes : List Zval
  backedEnumTable : List Zval
  linked : Bool
  parent : Entry
  interfaces : List Entry
  functions : List Function
  properties : List PropertyInfo
  defaults : List Zval
  statics : List Zval
  constants : List ClassConstant
  /-- The classes that are the scopes of its functions. -/
  scopes : List Entry

/-- `pmmpthread_complete_entry`. -/
def completeEntry (c : ClassEntry) : Work :=
  (if c.linked then .entry c.parent (.entries c.interfaces) else .done)
    ++ copyFunctions c.functions

/-- `pmmpthread_prepared_entry_late_bindings` of a class that is not
immutable: properties, statics, constants. -/
def lateBindings (c : ClassEntry) : Work :=
  .concat (c.properties.map copyPropertyInfo) ++ .values false c.defaults
    ++ .values false c.statics ++ prepareClassConstants c.constants

mutual
/-- No fatal error is raised in the copy. -/
def Zval.sound : Zval → Bool
  | .scalar | .other => true
  | .reference referent => referent.sound
  | .array elements => elements.sound
  | .object o => o.sound
  | .closure work _ => work.sound
  | .enumCase ce _ => ce.sound
  | .constantAst leaves => leaves.sound

def Found.sound : Found → Bool
  | .gone | .here => true
  | .fresh ce limit => ce.sound && !limit

def Entry.sound : Entry → Bool
  | .known => true
  | .copied work => work.sound

/-- Every value that is required is copied. -/
def Work.sound : Work → Bool
  | .done => true
  | .value required v next =>
      v.sound && (!required || v.copied) && next.sound
  | .connect o next => o.sound && next.sound
  | .entry ce next => ce.sound && next.sound
  | .throws next => next.sound
end

end PmmpThread.Model.Copy
