/-
Values on the two sides of a store: the `zval`s that PHP code of one
thread holds, and the storages that a shared table holds for all
threads (src/store_types.h). Also the local property table of one
connection, `std.properties`, in which a connection caches values.

# Ghost data

Two storages carry a field that the code does not have and does not
read: `stringPtr` the bytes that were written, `object` the identity
(`birth`) of the ts_obj that was written. They are set once by
`pmmpthread_store_create` and let theorems say "what was written".

# What is left out

A value that cannot be stored (an array that is not coerced, a
resource, an ordinary object, a Socket with a stream) is `other`:
`pmmpthread_store_create` refuses all of them alike.
-/
import PmmpThread.Model.Store

namespace PmmpThread.Model

open Zend

abbrev Bytes := List UInt8
/-- The address of a `pmmpthread_zend_object_t`. -/
abbrev Addr := Nat
/-- The address of a `pmmpthread_object_t`. -/
abbrev TsAddr := Nat
/-- `owner.ls`: the thread's TSRM context. -/
abbrev ThreadId := Nat
abbrev StrPtr := Nat
abbrev ClosurePtr := Nat

/-- The fields of a `php_socket` that are shared. -/
structure SocketData where
  bsdSocket : Int
  type : Int
  error : Int
  blocking : Bool
  deriving DecidableEq, Repr

/-- A `zval` of one thread. `interned` is a permanent string
(`IS_STR_PERMANENT`), `string` any other one, by its pointer. -/
inductive Zval where
  | undef
  | null
  | bool (b : Bool)
  | long (n : Int)
  | double (bits : UInt64)
  | interned (bytes : Bytes)
  | string (p : StrPtr)
  | enumCase (cls name : Bytes)
  | closure (p : ClosurePtr)
  | socket (s : SocketData)
  | object (a : Addr)
  | other
  | indirect
  deriving DecidableEq, Repr

/-- An element of a shared table: a scalar or a permanent or persisted
string directly, anything else behind a `pmmpthread_storage`. -/
inductive Storage where
  | null
  | bool (b : Bool)
  | long (n : Int)
  | double (bits : UInt64)
  | string (permanent : Bool) (bytes : Bytes)
  | stringPtr (owner : ThreadId) (p : StrPtr) (written : Bytes)
  | closure (p : ClosurePtr) (thisObj : Option Addr) (owner : ThreadId)
  | object (a : Addr) (written : Nat)
  | socket (s : SocketData)
  | enumCase (cls name : Bytes)
  deriving DecidableEq, Repr

/-- `pmmpthread_store_retain_in_local_cache`. -/
def retainInLocalCache : Zval → Bool
  | .object _ | .closure _ | .socket _ | .string _ | .interned _ => true
  | _ => false

/-- `pmmpthread_store_valid_local_cache_item`. -/
def validLocalCacheItem : Zval → Bool
  | .indirect => false
  | _ => true

/-- `pmmpthread_store_storage_is_cacheable`. -/
def storageIsCacheable : Option Storage → Bool
  | some (.string _ _) | some (.object _ _) | some (.closure _ _ _)
  | some (.socket _) | some (.stringPtr _ _ _) => true
  | _ => false

/-- `pmmpthread_store_storage_is_pmmpthread_obj`. -/
def storageIsPmmpthreadObj : Storage → Bool
  | .object _ _ => true
  | _ => false

-- ============================================ the local property table

/-- A connection's `std.properties` and `local_props_modcount`. -/
structure Local where
  props : Option (HashTable Zval)
  modcount : Int

namespace Local

/-- `std.properties` when it exists, else an empty table. -/
def table (l : Local) : HashTable Zval := l.props.getD (.init 8)

/-- What a lookup followed by `pmmpthread_store_valid_local_cache_item`
finds. -/
def cached (l : Local) (k : Key) : Option Zval :=
  (l.table.find k).filter validLocalCacheItem

/-- `pmmpthread_store_init_local_properties`: the engine builds the
table with an `IS_INDIRECT` element for each declared property. -/
def initProps (declared : List Key) (l : Local) : Local :=
  match l.props with
  | some _ => l
  | none =>
      { l with props := some (declared.foldl
          (fun t k => t.update true k .indirect) (.init 8)) }

/-- `zend_hash_update` on an initialised table. -/
def put (declared : List Key) (l : Local) (k : Key) (v : Zval) : Local :=
  { l with props := some ((l.initProps declared).table.update true k v) }

/-- `pmmpthread_store_update_local_property`. -/
def updateLocalProperty (declared : List Key) (l : Local) (k : Key)
    (v : Zval) : Local :=
  if retainInLocalCache v then l.put declared k v else l

/-- `zend_hash_del` on `std.properties`, if there is one. -/
def del (l : Local) (k : Key) : Local :=
  { l with props := l.props.map (·.del k) }

/-- `pmmpthread_store_sync_local_properties` for a shared table `h` at
modification count `modcount`; `keep` is its comparison of a storage
with the value cached for it. -/
def sync (keep : Storage → Zval → Bool) (h : HashTable Storage)
    (modcount : Int) (l : Local) : Local :=
  if l.modcount = modcount then l
  else
    { props := l.props.map (·.filter fun k v =>
        match h.find k with
        | some st => keep st v
        | none => false)
      modcount := modcount }

end Local

/-- `_pmmpthread_store_bump_modcount_nolock`. -/
def bumpModcount (l : Local) (s : Store Storage) : Local × Store Storage :=
  (if l.modcount = s.modcount then { l with modcount := l.modcount + 1 }
    else l,
    { s with modcount := s.modcount + 1 })

/-- The bump that each mutator makes if what it replaced or removed
was cacheable. -/
def bumpIf (cond : Bool) (l : Local) (s : Store Storage) :
    Local × Store Storage :=
  if cond then bumpModcount l s else (l, s)

/-- `pmmpthread_store_member_is_cacheable`. -/
def memberIsCacheable (h : HashTable Storage) (k : Key) : Bool :=
  storageIsCacheable (h.find k)

end PmmpThread.Model
