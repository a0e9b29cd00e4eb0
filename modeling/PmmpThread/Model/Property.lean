/-
Property writes and unsets on ThreadSafe objects:
`pmmpthread_write_property` and `pmmpthread_unset_property` of
src/handlers.c.

# The engine

What a class declares and what a scope may see is the engine's business:
`zend_get_property_info`, `zend_asymmetric_property_has_set_access` and
`zend_verify_property_type` are fields of `ClassEntry`, and so is whether
a value can be stored (`pmmpthread_store_save_zval`).

# User code

A magic method or a hook is user code. What it does to the object it
does through the same two handlers, from its own frame; those are further
calls. Whether the guard of the member is set, and which hook is running,
is part of the frame a call is made from.
-/
import PmmpThread.Model.Keys

namespace PmmpThread.Model

open Zend

/-- `info->hooks`; only the set hook matters here. -/
structure PropertyHooks where
  set : Bool
  deriving DecidableEq, Repr

/-- `zend_property_info`. The name is the mangled one; `setMask` is
`ZEND_ACC_PPP_SET_MASK`, a set visibility below the read visibility;
`typed` is `ZEND_TYPE_IS_SET`. -/
structure PropertyInfo where
  name : List UInt8
  prototype : Nat
  isStatic : Bool
  isReadonly : Bool
  isVirtual : Bool
  setMask : Bool
  typed : Bool
  hooks : Option PropertyHooks
  deriving DecidableEq, Repr

/-- The stored member of a property. -/
def PropertyInfo.key (info : PropertyInfo) : Key := coerceString info.name

/-- The answer of `zend_get_property_info`; `dynamic` is `NULL`. -/
inductive Lookup where
  | wrong
  | dynamic
  | found (info : PropertyInfo)

/-- Where a call comes from: the scope, the property whose hook is
running and whether it runs on the object itself, strict types, and the
recursion guard of the member for this kind of call. -/
structure CallFrame where
  scope : Option Nat
  hookOf : Option Nat
  onObject : Bool
  strict : Bool
  guarded : Bool

/-- The class of the object, and what the engine says about it. `Z` are
PHP values and `V` stored ones. -/
structure ClassEntry (Z V : Type) where
  magicSet : Bool
  magicUnset : Bool
  declared : List PropertyInfo
  getPropertyInfo : Option Nat → List UInt8 → Lookup
  hasSetAccess : Option Nat → PropertyInfo → Bool
  verifyPropertyType : PropertyInfo → Bool → Z → Option Z
  saveZval : Z → Option V

/-- The errors thrown. -/
inductive PropertyError where
  /-- By the engine, from `zend_get_property_info`. -/
  | noAccess
  /-- "Property %s::$%s is read-only" -/
  | virtualReadOnly
  /-- "Must not write to virtual property %s::$%s" -/
  | virtualWrite
  /-- `zend_asymmetric_visibility_property_modification_error` -/
  | setVisibility
  /-- By the engine, from `zend_verify_property_type`. -/
  | type
  /-- "Cannot assign non-thread-safe value of type %s to thread-safe
  class property %s::$%s" -/
  | notThreadSafe
  /-- "Cannot unset hooked property %s::$%s" -/
  | unsetHooked
  deriving DecidableEq, Repr

/-- How a call ends. -/
inductive PropertyResult where
  /-- A magic method was called. -/
  | magic
  /-- The set hook was called. -/
  | hook
  /-- The store was used. -/
  | done
  | error (e : PropertyError)
  deriving DecidableEq, Repr

/-- `zend_is_in_hook`. -/
def CallFrame.isInHook (f : CallFrame) (info : PropertyInfo) : Bool :=
  f.hookOf == some info.prototype

/-- `zend_should_call_hook`. -/
def CallFrame.shouldCallHook (f : CallFrame) (info : PropertyInfo) : Bool :=
  !f.isInHook info || !f.onObject

/-- What `pmmpthread_write_property` makes of the hooks of a property. -/
inductive SetAction where
  | plain
  | callHook
  | fail (e : PropertyError)
  deriving DecidableEq, Repr

namespace ClassEntry

variable {Z V : Type} (C : ClassEntry Z V)

/-- The branch on `info->hooks` in `pmmpthread_write_property`. -/
def setAction (f : CallFrame) (info : PropertyInfo) : SetAction :=
  match info.hooks with
  | none => .plain
  | some hooks =>
      if !hooks.set then
        if info.isVirtual then .fail .virtualReadOnly else .plain
      else if !f.shouldCallHook info then
        if info.isVirtual then .fail .virtualWrite else .plain
      else if info.setMask && !C.hasSetAccess f.scope info then
        .fail .setVisibility
      else .callHook

/-- `pmmpthread_store_write` of a property. -/
def storeWrite (s : Store V) (k : Key) (value : Z) (compact : Bool) :
    PropertyResult × Store V :=
  match C.saveZval value with
  | some v => (.done, s.write (some k) v compact)
  | none => (.error .notThreadSafe, s)

/-- `pmmpthread_write_property`. -/
def writeProperty (f : CallFrame) (s : Store V) (member : List UInt8)
    (value : Z) (compact : Bool) : PropertyResult × Store V :=
  if C.magicSet && !f.guarded then (.magic, s)
  else
    match C.getPropertyInfo f.scope member with
    | .wrong => (.error .noAccess, s)
    | .dynamic => C.storeWrite s (coerceString member) value compact
    | .found info =>
        if info.isStatic then
          C.storeWrite s (coerceString member) value compact
        else
          match C.setAction f info with
          | .fail e => (.error e, s)
          | .callHook => (.hook, s)
          | .plain =>
              if info.typed then
                match C.verifyPropertyType info f.strict value with
                | none => (.error .type, s)
                | some value => C.storeWrite s info.key value compact
              else C.storeWrite s info.key value compact

/-- `pmmpthread_unset_property`. -/
def unsetProperty (f : CallFrame) (s : Store V) (member : List UInt8) :
    PropertyResult × Store V :=
  if C.magicUnset && !f.guarded then (.magic, s)
  else
    match C.getPropertyInfo f.scope member with
    | .wrong => (.error .noAccess, s)
    | .dynamic => (.done, s.delete (coerceString member))
    | .found info =>
        if info.isStatic then (.done, s.delete (coerceString member))
        else if info.hooks.isSome then (.error .unsetHooked, s)
        else (.done, s.delete info.key)

end ClassEntry

-- ================================================= sequences of calls

/-- A property write or unset. -/
inductive PropertyCall (Z : Type) where
  | write (f : CallFrame) (member : List UInt8) (value : Z) (compact : Bool)
  | unset (f : CallFrame) (member : List UInt8)

namespace PropertyCall

variable {Z V : Type}

def frame : PropertyCall Z → CallFrame
  | .write f _ _ _ => f
  | .unset f _ => f

def apply (C : ClassEntry Z V) (s : Store V) :
    PropertyCall Z → PropertyResult × Store V
  | .write f member value compact => C.writeProperty f s member value compact
  | .unset f member => C.unsetProperty f s member

/-- The store after a sequence of calls. -/
def run (C : ClassEntry Z V) (s : Store V) (calls : List (PropertyCall Z)) :
    Store V :=
  calls.foldl (fun s c => (c.apply C s).2) s

end PropertyCall

end PmmpThread.Model
