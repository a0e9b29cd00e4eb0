/-
Property reads and tests on ThreadSafe objects: `pmmpthread_read_property`
and `pmmpthread_has_property` of src/handlers.c, the counterparts of the
two handlers in `Model/Property.lean`.

# The engine

As there. The get hooks, the magic methods `__get` and `__isset`, and what
the store can say about a stored value without restoring it are further
fields of the class.

# What is left out

The local table as such (`Model/Ops.lean`): what it answers after its sync,
first and without a look at the access, is a parameter of every read. The
restoring of the stored value. The answers of user code: a call of a magic
method or a hook is a result of its own.
-/
import PmmpThread.Model.Property
import PmmpThread.Model.Handlers

namespace PmmpThread.Model

open Zend

/-- What reading needs of a class. `getHook` is
`info->hooks[ZEND_PROPERTY_HOOK_GET]`, `isObject`
`pmmpthread_store_storage_is_pmmpthread_obj`, `isset` the switch of
`pmmpthread_store_isset`. -/
structure ReadableClass (Z V : Type) extends ClassEntry Z V where
  magicGet : Bool
  magicIsset : Bool
  getHook : PropertyInfo → Bool
  isObject : V → Bool
  isset : V → HasSetExists → Bool

/-- The errors and warnings of a read. -/
inductive ReadError where
  /-- By the engine, from `zend_get_property_info`. -/
  | noAccess
  /-- "Property %s::$%s is write-only" -/
  | writeOnly
  /-- "Must not read from virtual property %s::$%s" -/
  | virtualRead
  /-- "Indirect modification of non-ThreadSafe members of %s is not
  supported" -/
  | indirectModification
  /-- The warning "Undefined property: %s::$%s" -/
  | undefined
  /-- "Typed property %s::$%s must not be accessed before
  initialization" -/
  | uninitialized
  deriving DecidableEq, Repr

/-- How a read ends; null comes with what was raised, in order. -/
inductive ReadProperty (V : Type) where
  | magic
  | hook
  | value (v : V)
  | null (raised : List ReadError)
  deriving DecidableEq, Repr

/-- How a test ends; an error answers no. -/
inductive HasProperty where
  | magic
  | hook
  | answer (b : Bool)
  | error (e : ReadError)
  deriving DecidableEq, Repr

/-- What a read makes of the get hook of a property. -/
inductive GetAction where
  | plain
  | callHook
  | fail (e : ReadError)
  deriving DecidableEq, Repr

namespace ReadableClass

variable {Z V : Type} (C : ReadableClass Z V)

/-- The branch on `info->hooks` of a read and of a test, with
`zend_call_get_hook`. -/
def getAction (f : CallFrame) (info : PropertyInfo) : GetAction :=
  match info.hooks with
  | none => .plain
  | some _ =>
      if !C.getHook info then
        if info.isVirtual then .fail .writeOnly else .plain
      else if f.shouldCallHook info then .callHook
      else if info.isVirtual then .fail .virtualRead
      else .plain

/-- What `pmmpthread_store_read` makes of the shared table's element: the
stored value, or `FAILURE` with or without an error. -/
def sharedRead (found : Option V) (access : Access) :
    Except (Option ReadError) V :=
  if !(found.any C.isObject) && !access.readOnly then
    .error (some .indirectModification)
  else
    match found with
    | some v => .ok v
    | none => .error none

/-- `pmmpthread_store_read` of a member: what the local table has comes
first. -/
def storeRead (s : Store V) (cached : Cached V) (k : Key)
    (access : Access) : Except (Option ReadError) V :=
  match cached k with
  | some v => .ok v
  | none => C.sharedRead (s.hash.find k) access

/-- A read of a dynamic property; the warning does not look at what was
thrown. -/
def readDynamic (s : Store V) (cached : Cached V) (member : List UInt8)
    (access : Access) : ReadProperty V :=
  match C.storeRead s cached (coerceString member) access with
  | .ok v => .value v
  | .error e =>
      .null (e.toList ++ if access = .is then [] else [.undefined])

/-- A read of a declared property, under its mangled name. -/
def readDeclared (s : Store V) (cached : Cached V) (info : PropertyInfo)
    (access : Access) : ReadProperty V :=
  match C.storeRead s cached info.key access with
  | .ok v => .value v
  | .error (some e) => .null [e]
  | .error none => .null (if access = .is then [] else [.uninitialized])

/-- `pmmpthread_read_property`. -/
def readProperty (f : CallFrame) (s : Store V) (cached : Cached V)
    (member : List UInt8) (access : Access) : ReadProperty V :=
  if C.magicGet && !f.guarded then .magic
  else
    match C.getPropertyInfo f.scope member with
    | .wrong => .null [.noAccess]
    | .dynamic => C.readDynamic s cached member access
    | .found info =>
        if info.isStatic then C.readDynamic s cached member access
        else
          match C.getAction f info with
          | .fail e => .null [e]
          | .callHook => .hook
          | .plain => C.readDeclared s cached info access

/-- `pmmpthread_store_isset`. -/
def storeIsset (found : Option V) (mode : HasSetExists) : Bool :=
  found.any fun v => C.isset v mode

/-- `pmmpthread_has_property`. A hooked property exists, whatever the store
holds. -/
def hasProperty (f : CallFrame) (s : Store V) (member : List UInt8)
    (mode : HasSetExists) : HasProperty :=
  if C.magicIsset && !f.guarded then .magic
  else
    match C.getPropertyInfo f.scope member with
    | .wrong => .answer false
    | .dynamic =>
        .answer (C.storeIsset (s.hash.find (coerceString member)) mode)
    | .found info =>
        if info.isStatic then
          .answer (C.storeIsset (s.hash.find (coerceString member)) mode)
        else if info.hooks.isSome && mode == .exists then .answer true
        else
          match C.getAction f info with
          | .fail e => .error e
          | .callHook => .hook
          | .plain => .answer (C.storeIsset (s.hash.find info.key) mode)

end ReadableClass

-- ================================================ what it is there for

/-- A property that code can name: a declared one, which a class and a
scope decide, or a dynamic one. -/
inductive PropertyRef where
  | declared (info : PropertyInfo)
  | dynamic (member : List UInt8)
  deriving DecidableEq

/-- Each property has a cell of its own. -/
abbrev Cells (V : Type) := PropertyRef → Option V

/-- The property that a member names in a scope, if it may be named. -/
def ClassEntry.resolve {Z V : Type} (C : ClassEntry Z V)
    (scope : Option Nat) (member : List UInt8) : Option PropertyRef :=
  match C.getPropertyInfo scope member with
  | .wrong => none
  | .dynamic => some (.dynamic member)
  | .found info =>
      if info.isStatic then some (.dynamic member) else some (.declared info)

namespace PropertyCall

variable {Z V : Type}

/-- What a call puts into the cell of a property: nothing changes (`none`)
where a hook or an error comes first. -/
def cell (C : ClassEntry Z V) : PropertyCall Z → PropertyRef →
    Option (Option V)
  | .write _ _ value _, .dynamic _ => (C.saveZval value).map some
  | .write f _ value _, .declared info =>
      if C.setAction f info = .plain then
        ((if info.typed then C.verifyPropertyType info f.strict value
          else some value).bind C.saveZval).map some
      else none
  | .unset _ _, .dynamic _ => some none
  | .unset _ _, .declared info => if info.hooks.isSome then none else some none

/-- The property a call is about, unless a magic method takes it. -/
def named (C : ClassEntry Z V) : PropertyCall Z → Option PropertyRef
  | .write f member _ _ =>
      if C.magicSet && !f.guarded then none else C.resolve f.scope member
  | .unset f member =>
      if C.magicUnset && !f.guarded then none else C.resolve f.scope member

/-- A call as a change of one cell. -/
def onCells (C : ClassEntry Z V) (cells : Cells V) (c : PropertyCall Z) :
    Cells V :=
  match c.named C with
  | none => cells
  | some r =>
      match c.cell C r with
      | none => cells
      | some content => Function.update cells r content

end PropertyCall

namespace ReadableClass

variable {Z V : Type} (C : ReadableClass Z V)

/-- A read from the cells. -/
def readCells (f : CallFrame) (cells : Cells V) (member : List UInt8)
    (access : Access) : ReadProperty V :=
  if C.magicGet && !f.guarded then .magic
  else
    match C.resolve f.scope member with
    | none => .null [.noAccess]
    | some (.dynamic member) =>
        match C.sharedRead (cells (.dynamic member)) access with
        | .ok v => .value v
        | .error e =>
            .null (e.toList ++ if access = .is then [] else [.undefined])
    | some (.declared info) =>
        match C.getAction f info with
        | .fail e => .null [e]
        | .callHook => .hook
        | .plain =>
            match C.sharedRead (cells (.declared info)) access with
            | .ok v => .value v
            | .error (some e) => .null [e]
            | .error none =>
                .null (if access = .is then [] else [.uninitialized])

/-- A test of the cells. -/
def hasCells (f : CallFrame) (cells : Cells V) (member : List UInt8)
    (mode : HasSetExists) : HasProperty :=
  if C.magicIsset && !f.guarded then .magic
  else
    match C.resolve f.scope member with
    | none => .answer false
    | some (.dynamic member) =>
        .answer (C.storeIsset (cells (.dynamic member)) mode)
    | some (.declared info) =>
        if info.hooks.isSome && mode == .exists then .answer true
        else
          match C.getAction f info with
          | .fail e => .error e
          | .callHook => .hook
          | .plain => .answer (C.storeIsset (cells (.declared info)) mode)

end ReadableClass

end PmmpThread.Model
