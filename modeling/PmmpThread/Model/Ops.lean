/-
The store operations of src/store.c as they act on the world: reading,
deleting, taking from either end, merging, turning into an array, and
the full sync that `pmmpthread_join` relies on.

# Shape

Each operation is what the C function does between taking and releasing
the object's monitor. What it does after the release (the local table
of `pmmpthread_store_read`, `_write`, `_delete`) is left to the thread's
frame, see `Model/Step.lean`. Storages are turned into values first and
the store and the local table are replaced at the end: restoring a
value creates connections, strings and closures but touches neither, so
the order of the source is not visible.

# Values that die inside an operation

A value that loses its last reference when a table drops it is not
destroyed on the spot; it stays until the engine's `release` step.
-/
import PmmpThread.Model.World

namespace PmmpThread.Model

open Zend

/-- How `pmmpthread_store_restore_zval` ends; `failed` leaves null and
an exception. -/
inductive Restored where
  | value (v : Zval)
  | failed
  | fault
  deriving DecidableEq, Repr

/-- The value left in the caller's zval. -/
def Restored.zval : Restored → Zval
  | .value v => v
  | _ => .null

/-- The access type of a read, `BP_VAR_*`. -/
inductive Access where
  | r
  | is
  | w
  | rw
  | unset
  deriving DecidableEq, Repr

def Access.readOnly : Access → Bool
  | .r | .is => true
  | _ => false

/-- How `pmmpthread_store_read` ends: a value from the local table, one
restored from the shared table, null with an exception, no such
member, or the "Indirect modification" error. -/
inductive ReadResult where
  | cached (v : Zval)
  | restored (v : Zval)
  | threw
  | absent
  | indirectModification
  | fault
  deriving DecidableEq, Repr

namespace World

-- ========================================================== restoring

/-- What `pmmpthread_object_connect` leaves in a bound variable. -/
def Connected.use : Connected → Option (Use Addr)
  | .ok l => some (.object l)
  | .gone => some .uninit
  | .failed => some .null
  | .fault => none

/-- `pmmpthread_copy_statics` on the bound variables. What
`pmmpthread_object_connect` answers is not looked at. -/
def copyStatics (E : Engine) (w : World) (t : ThreadId) :
    List (Use Addr) → Option (List (Use Addr) × World)
  | [] => some ([], w)
  | .null :: us => (w.copyStatics E t us).map fun r => (.null :: r.1, r.2)
  | .uninit :: _ => none
  | .object a :: us =>
      let c := w.objectConnect E t a
      c.1.use.bind fun u =>
        (c.2.copyStatics E t us).map fun r => (u :: r.1, r.2)

/-- The new closure of `pmmpthread_copy_closure`. -/
def newClosure (w : World) (cl : Closure) : ClosurePtr × World :=
  (w.closures.length, { w with closures := w.closures ++ [cl] })

/-- `pmmpthread_copy_closure` after `$this` was connected. -/
def copyBound (E : Engine) (w : World) (t : ThreadId) (cl : Closure)
    (thisObj : Option Addr) : Restored × World :=
  if cl.fake then
    if E.functionKnown t cl.body then
      let r := w.newClosure { cl with owner := t, thisObj, uses := [] }
      (.value (.closure r.1), r.2)
    else (.failed, w)
  else
    match w.copyStatics E t cl.uses with
    | some (uses, w') =>
        let r := w'.newClosure { cl with owner := t, thisObj, uses }
        (.value (.closure r.1), r.2)
    | none => (.fault, w)

/-- `pmmpthread_copy_closure`; `$this` is null, and the copy unbound, if
its class cannot be initialised. -/
def copyClosure (E : Engine) (w : World) (t : ThreadId) (p : ClosurePtr) :
    Restored × World :=
  match w.closures[p]? with
  | none => (.fault, w)
  | some cl =>
      if cl.live then
        match cl.thisObj with
        | none => w.copyBound E t cl none
        | some a =>
            match w.objectConnect E t a with
            | (.ok l, w') => w'.copyBound E t cl (some l)
            | (.gone, w') => (.failed, w')
            | (.failed, w') => w'.copyBound E t cl none
            | (.fault, w') => (.fault, w')
      else (.fault, w)

/-- A string pointer of another thread is copied, the thread's own one
is used as it is. -/
def restoreStringPtr (E : Engine) (w : World) (t owner : ThreadId)
    (p : StrPtr) : Restored × World :=
  match w.strings.get p with
  | none => (.fault, w)
  | some s =>
      if owner = t then (.value (.string p), w)
      else
        let r := w.newString E t s.bytes
        (.value (.string r.1), r.2)

/-- `pmmpthread_store_restore_zval_ex`, with `pmmpthread_store_convert`
for what is behind a pointer. -/
def restoreZval (E : Engine) (w : World) (t : ThreadId) :
    Storage → Restored × World
  | .null => (.value .null, w)
  | .bool b => (.value (.bool b), w)
  | .long n => (.value (.long n), w)
  | .double d => (.value (.double d), w)
  | .string true b => (.value (.interned b), w)
  | .string false b =>
      let r := w.newString E t b
      (.value (.string r.1), r.2)
  | .stringPtr owner p _ => w.restoreStringPtr E t owner p
  | .closure p _ _ => w.copyClosure E t p
  | .object a _ =>
      match w.objectConnect E t a with
      | (.ok l, w') => (.value (.object l), w')
      | (.gone, w') | (.failed, w') => (.failed, w')
      | (.fault, w') => (.fault, w')
  | .socket s => (.value (.socket s), w)
  | .enumCase cls name =>
      if E.enumResolves t cls name then (.value (.enumCase cls name), w)
      -- the error names the class by its entry, which may be NULL
      else if E.enumLoaded t cls then (.failed, w)
      else (.fault, w)

/-- To restore an object is to connect to it. -/
theorem restoreZval_ok {E : Engine} {w u : World} {t : ThreadId}
    {a l : Addr} {b : Nat} (h : w.objectConnect E t a = (.ok l, u)) :
    w.restoreZval E t (.object a b) = (.value (.object l), u) := by
  simp only [restoreZval, h]

theorem restoreZval_failed {E : Engine} {w u : World} {t : ThreadId}
    {a : Addr} {b : Nat} (h : w.objectConnect E t a = (.failed, u)) :
    w.restoreZval E t (.object a b) = (.failed, u) := by
  simp only [restoreZval, h]

theorem restoreZval_gone {E : Engine} {w u : World} {t : ThreadId}
    {a : Addr} {b : Nat} (h : w.objectConnect E t a = (.gone, u)) :
    w.restoreZval E t (.object a b) = (.failed, u) := by
  simp only [restoreZval, h]

/-- An enum case is restored as itself or not at all. -/
theorem restoreZval_enumCase {E : Engine} {w u : World} {t : ThreadId}
    {cls name : Bytes} {v : Zval}
    (h : w.restoreZval E t (.enumCase cls name) = (.value v, u)) :
    v = .enumCase cls name := by
  simp only [restoreZval] at h
  split at h
  · exact (Restored.value.inj (Prod.mk.inj h).1).symm
  · split at h <;> cases h

theorem restoreZval_enumCase_world (E : Engine) (w : World) (t : ThreadId)
    (cls name : Bytes) : (w.restoreZval E t (.enumCase cls name)).2 = w := by
  simp only [restoreZval]
  split
  · rfl
  · split <;> rfl

/-- Storages restored one after the other, each under its key. -/
def restoreAll (E : Engine) (w : World) (t : ThreadId) :
    List (Key × Storage) → Option (List (Key × Zval) × World)
  | [] => some ([], w)
  | e :: es =>
      match w.restoreZval E t e.2 with
      | (.fault, _) => none
      | (r, w') =>
          (w'.restoreAll E t es).map fun rs => ((e.1, r.zval) :: rs.1, rs.2)

-- ====================================================== a connection

/-- What an operation through a connection works on: the connection,
its ts_obj and the shared object there. -/
structure Conn where
  z : ZObj
  s : TsAddr
  o : TsObj

/-- The connection at address `c`, if it is live and constructed. -/
def conn (w : World) (c : Addr) : Option Conn :=
  match w.mem.get c with
  | none => none
  | some z =>
    match z.tsObj with
    | none => none
    | some s => (w.shared.get s).map fun o => ⟨z, s, o⟩

/-- The local table and the store an operation leaves. -/
def commit (w : World) (c : Addr) (s : TsAddr)
    (r : Local × Store Storage) : World :=
  (w.setStore s r.2).setLocal c r.1

-- =============================================================== read

/-- The first part of `pmmpthread_store_read`: a connection that has a
local table syncs it. -/
def readSync (w : World) (x : Conn) : Local :=
  match x.z.loc.props with
  | some _ => w.syncLocal x.z.owner x.o.props x.z.loc
  | none => x.z.loc

/-- The rest of it, when the local table has no answer. -/
def readShared (E : Engine) (w : World) (x : Conn) (k : Key)
    (access : Access) : ReadResult × World :=
  let st := x.o.props.hash.find k
  if !((st.map storageIsPmmpthreadObj).getD false) && !access.readOnly then
    (.indirectModification, w)
  else
    match st with
    | none => (.absent, w)
    | some st =>
        match w.restoreZval E x.z.owner st with
        | (.value v, w') => (.restored v, w')
        | (.failed, w') => (.threw, w')
        | (.fault, w') => (.fault, w')

/-- `pmmpthread_store_read` up to the unlock. -/
def readLocked (E : Engine) (w : World) (c : Addr) (k : Key)
    (access : Access) : ReadResult × World :=
  match w.conn c with
  | none => (.fault, w)
  | some x =>
      let l := w.readSync x
      match l.cached k with
      | some v => (.cached v, w.setLocal c l)
      | none =>
          ((w.setLocal c l).readShared E x k access)

-- ============================================================= delete

/-- `pmmpthread_store_delete` up to the unlock: whether the member was
there, and the world after it. -/
def deleteLocked (w : World) (c : Addr) (k : Key) : Option (Bool × World) :=
  (w.conn c).map fun x =>
    let found := x.o.props.hash.contains k
    let was := memberIsCacheable x.o.props.hash k
    (found, w.commit c x.s
      (bumpIf (found && was) x.z.loc (x.o.props.delete k)))

-- ====================================================== shift and pop

/-- The common body of `pmmpthread_store_shift` and
`pmmpthread_store_pop`: `r` is the entry taken and the store after it. -/
def takeEntry (E : Engine) (w : World) (c : Addr) (x : Conn)
    (r : Option (Key × Storage) × Store Storage) : Option (Restored × World) :=
  match r.1 with
  | none => some (.value .null, w)
  | some e =>
      match w.restoreZval E x.z.owner e.2 with
      | (.fault, _) => none
      | (v, w') =>
          some (v, w'.commit c x.s
            (bumpIf (storageIsCacheable (some e.2)) (x.z.loc.del e.1) r.2))

/-- `pmmpthread_store_shift`. -/
def storeShift (E : Engine) (w : World) (c : Addr) :
    Option (Restored × World) :=
  (w.conn c).bind fun x => w.takeEntry E c x x.o.props.shift

/-- `pmmpthread_store_pop`. -/
def storePop (E : Engine) (w : World) (c : Addr) :
    Option (Restored × World) :=
  (w.conn c).bind fun x => w.takeEntry E c x x.o.props.pop

/-- `pmmpthread_store_chunk`: the keys and values taken, in order. -/
def storeChunk (E : Engine) (w : World) (c : Addr) (size : Int) :
    Option (List (Key × Zval) × World) :=
  (w.conn c).bind fun x =>
    let r := x.o.props.chunk size
    (w.restoreAll E x.z.owner r.1).map fun vs =>
      (vs.1, vs.2.commit c x.s
        (bumpIf (r.1.any fun e => storageIsCacheable (some e.2))
          (r.1.foldl (fun l e => l.del e.1) x.z.loc) r.2))

-- ============================================================== merge

/-- `pmmpthread_store_hard_copy_storage`; `none` when it would read a
freed string. The names of an enum case are values here; as the strings
that both storages point to they are in `SharedStrings.hardCopyStorage`,
and `hardCopyStorage_denotes` relates the two. -/
def hardCopyStorage (w : World) : Storage → Option Storage
  | .stringPtr _ p _ => (w.strings.get p).map fun s => .string false s.bytes
  | st => some st

/-- The source's entries as the destination will store them. -/
def hardCopyAll (w : World) (es : List (Key × Storage)) :
    Option (List (Key × Storage)) :=
  es.mapM fun e => (w.hardCopyStorage e.2).map fun st => (e.1, st)

/-- The loop of `pmmpthread_store_merge` over storages, on the table,
the destination's local table and `overwrote_pmmpthread_object`. -/
def mergeLoop (overwrite : Bool) :
    List (Key × Storage) → HashTable Storage × Local × Bool →
      HashTable Storage × Local × Bool
  | [], r => r
  | e :: es, (h, l, overwrote) =>
      if !overwrite && h.contains e.1 then
        mergeLoop overwrite es (h, l, overwrote)
      else
        mergeLoop overwrite es
          (h.update true e.1 e.2, l.del e.1,
            overwrote || memberIsCacheable h e.1)

/-- `pmmpthread_store_merge` into `c` from another ThreadSafeArray,
through the connection `from_`. -/
def storeMerge (w : World) (c from_ : Addr) (overwrite : Bool) :
    Option World :=
  match w.conn c, w.conn from_ with
  | some x, some y =>
      (w.hardCopyAll y.o.props.hash.entries).map fun es =>
        let r := mergeLoop overwrite es (x.o.props.hash, x.z.loc, false)
        w.commit c x.s
          (bumpIf r.2.2 r.2.1 { x.o.props with hash := r.1 }.invalidateBounds)
  | _, _ => none

-- ============================================================= tohash

/-- The elements `pmmpthread_store_tohash` has to restore: those that
are not validly cached. -/
def uncached (l : Local) (h : HashTable Storage) : List (Key × Storage) :=
  h.entries.filter fun e => (l.cached e.1).isNone

/-- The `IS_INDIRECT` elements it adds for declared properties that are
not there. -/
def addIndirect (declared : List Key) (l : Local) : Local :=
  declared.foldl
    (fun l k => if l.table.contains k then l else l.put declared k .indirect)
    l

/-- `pmmpthread_store_tohash`; with `own` the hash filled is the
object's own properties table, else a table of the caller. -/
def storeTohash (E : Engine) (w : World) (c : Addr) (own : Bool) :
    Option World :=
  (w.conn c).bind fun x =>
    let l := w.syncLocal x.z.owner x.o.props (x.z.loc.initProps x.z.declared)
    let todo := uncached l x.o.props.hash
    (w.restoreAll E x.z.owner todo).map fun vs =>
      if own then
        let l' := addIndirect x.z.declared
          (vs.1.foldl (fun l e => l.put x.z.declared e.1 e.2) l)
        let changed := !todo.isEmpty
          || x.z.declared.any fun k => !(vs.1.foldl
            (fun l e => l.put x.z.declared e.1 e.2) l).table.contains k
        vs.2.setLocal c (if changed then
          { l' with modcount := x.o.props.modcount - 1 } else l')
      else vs.2.setLocal c l

-- ========================================================== full sync

/-- `zend_hash_update` of one element of the own properties table. -/
def putLocal (w : World) (c : Addr) (k : Key) (v : Zval) : World :=
  { w with mem := w.mem.modify c fun z =>
      { z with loc := z.loc.put z.declared k v } }

/-- One element of the loop of
`pmmpthread_store_full_sync_local_properties`; `recurse` is the
recursive call. Taking a value that is not an object for one is a
fault. -/
def fullSyncEntry (E : Engine) (t : ThreadId)
    (recurse : World → Addr → Option World) (c : Addr) (w : World)
    (e : Key × Storage) : Option World :=
  match (w.mem.get c).bind fun z => z.loc.cached e.1 with
  | some v =>
      if storageIsPmmpthreadObj e.2 then
        match v with
        | .object l => recurse w l
        | _ => none
      else some w
  | none =>
      if storageIsCacheable (some e.2) then
        match w.restoreZval E t e.2 with
        | (.fault, _) => none
        | (r, w') =>
            if storageIsPmmpthreadObj e.2 then
              match r.zval with
              | .object l =>
                  (recurse w' l).map (·.putLocal c e.1 (.object l))
              | _ => none
            else some (w'.putLocal c e.1 r.zval)
      else some w

theorem fullSyncEntry_restored {E : Engine} {t : ThreadId}
    {recurse : World → Addr → Option World} {c a l : Addr} {w u : World}
    {k : Key} {b : Nat}
    (hc : ((w.mem.get c).bind fun z => z.loc.cached k) = none)
    (hr : w.restoreZval E t (.object a b) = (.value (.object l), u)) :
    fullSyncEntry E t recurse c w (k, .object a b)
      = (recurse u l).map (·.putLocal c k (.object l)) := by
  unfold fullSyncEntry
  rw [hc]
  simp only [hr]
  rfl

/-- `pmmpthread_store_full_sync_local_properties` on thread `t`.
`protect` are the objects whose recursion guard is set; `none` is a
fault, or `fuel` too small for the depth of the recursion. -/
def fullSync (E : Engine) (t : ThreadId) :
    Nat → List Addr → World → Addr → Option World
  | 0, _, _, _ => none
  | fuel + 1, protect, w, c =>
      if c ∈ protect then some w
      else
        (w.conn c).bind fun x =>
          let l := (w.syncLocal x.z.owner x.o.props x.z.loc).initProps
            x.z.declared
          (x.o.props.hash.entries.foldlM
            (fullSyncEntry E t (fullSync E t fuel (c :: protect)) c)
            (w.setLocal c l)).bind fun w' =>
              x.z.gc.foldlM (fullSync E t fuel (c :: protect)) w'

/-- The syncs of `pmmpthread_join` for the thread object `x`: its
properties, the tasks in its gc queue, the shared globals. -/
def joinSync (E : Engine) (fuel : Nat) (w : World) (t : ThreadId)
    (x : Addr) : Option World :=
  (fullSync E t fuel [] w x).bind fun w =>
    ((w.mem.get x).bind fun z =>
      z.gc.foldlM (fullSync E t fuel []) w).bind fun w =>
        (w.threadSharedGlobals t).bind fun g => fullSync E t fuel [] w g

end World

end PmmpThread.Model
