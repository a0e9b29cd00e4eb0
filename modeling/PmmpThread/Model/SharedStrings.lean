/-
The strings that threads share (src/store.c, src/globals.c): the keys of
the shared tables, the strings and the names of enum cases in them, and
the interned strings of the module, as pointers into one heap.

# Permanent strings

A string is permanent (`IS_STR_PERMANENT`) if the engine, the opcode cache
or the module made it for the whole process. Such a string is used where
it is; any other is copied when a table takes it, and freed with what the
table has it for.

# References

A string that is not permanent has one reference, that of its table. A
merge of an enum case has two tables share its names, and each frees them
as if they were its own. The reference that a call takes on a key while it
has the monitor is left out. Strings of a thread's own memory have no
address here: a caller passes their bytes. What a `STORE_TYPE_STRING_PTR`
points at is one of them.

Each call is one step, since it has the monitors of its tables; the
interned strings are behind the globals lock.
-/
import PmmpThread.Model.Value
import PmmpThread.Zend.Owned
import PmmpThread.Zend.Upsert

namespace PmmpThread.Model.SharedStrings

open Zend

-- ============================================================ strings

/-- A `zend_string` in memory that threads share. -/
structure ZString where
  bytes : Bytes
  permanent : Bool

abbrev Memory := Heap ZString

/-- A string that a caller passes; the address is that of a permanent
one. -/
structure Arg where
  bytes : Bytes
  permanentAt : Option Nat

/-- What is at the address is what the caller says. -/
def Arg.Valid (h : Memory) (s : Arg) : Prop :=
  ∀ p, s.permanentAt = some p → h.get p = some ⟨s.bytes, true⟩

/-- A string of a table, as an argument; `none` if it was freed. -/
def argAt (h : Memory) (p : Nat) : Option Arg :=
  (h.get p).map fun s =>
    ⟨s.bytes, if s.permanent then some p else none⟩

/-- `pmmpthread_store_save_string`. -/
def saveString (A : Allocator) (h : Memory) (s : Arg) : Nat × Memory :=
  match s.permanentAt with
  | some p => (p, h)
  | none => (h.next A, h.place (h.next A) ⟨s.bytes, false⟩)

/-- `zend_string_release_ex` and `zend_string_free`: nothing happens to a
permanent string; `none` if it was freed before. -/
abbrev freeString (h : Memory) (p : Nat) : Option Memory :=
  h.drop ZString.permanent p

-- ============================================================= values

variable {V : Type}

/-- An element of a shared table. `plain` is one without strings. -/
inductive Saved (V : Type) where
  | plain (v : V)
  | string (p : Nat)
  | stringPtr (owner : ThreadId) (bytes : Bytes)
  | enumCase (cls member : Nat)

/-- The names of an enum case. -/
def Saved.names : Saved V → List Nat
  | .enumCase cls member => [cls, member]
  | .plain _ | .string _ | .stringPtr _ _ => []

/-- What a thread writes. -/
inductive Written (V : Type) where
  | plain (v : V)
  | string (owner : ThreadId) (s : Arg)
  | enumCase (cls member : Arg)

/-- What a thread reads. -/
inductive Content (V : Type) where
  | plain (v : V)
  | string (bytes : Bytes)
  | enumCase (cls member : Bytes)
  deriving DecidableEq

def Written.content : Written V → Content V
  | .plain v => .plain v
  | .string _ s => .string s.bytes
  | .enumCase cls member => .enumCase cls.bytes member.bytes

def Written.Valid (h : Memory) : Written V → Prop
  | .plain _ => True
  | .string _ s => s.Valid h
  | .enumCase cls member => cls.Valid h ∧ member.Valid h

/-- `pmmpthread_store_save_zval`. -/
def saveZval (A : Allocator) (h : Memory) : Written V → Saved V × Memory
  | .plain v => (.plain v, h)
  | .string owner s =>
      match s.permanentAt with
      | some p => (.string p, h)
      | none => (.stringPtr owner s.bytes, h)
  | .enumCase cls member =>
      let c := saveString A h cls
      let m := saveString A c.2 member
      (.enumCase c.1 m.1, m.2)

/-- `pmmpthread_store_restore_zval`; `none` if a string was freed. -/
def restoreZval (h : Memory) : Saved V → Option (Content V)
  | .plain v => some (.plain v)
  | .string p => (h.get p).map fun s => .string s.bytes
  | .stringPtr _ bytes => some (.string bytes)
  | .enumCase cls member =>
      (h.get cls).bind fun c => (h.get member).map fun m =>
        .enumCase c.bytes m.bytes

/-- `pmmpthread_store_hard_copy_storage`. The names of an enum case are
not copied. -/
def hardCopyStorage (A : Allocator) (h : Memory) :
    Saved V → Option (Saved V × Memory)
  | .plain v => some (.plain v, h)
  | .string p => (argAt h p).map fun s =>
      (.string (saveString A h s).1, (saveString A h s).2)
  | .stringPtr _ bytes =>
      some (.string (saveString A h ⟨bytes, none⟩).1,
        (saveString A h ⟨bytes, none⟩).2)
  | .enumCase cls member => some (.enumCase cls member, h)

/-- `pmmpthread_store_storage_dtor`. -/
def storageDtor (h : Memory) : Saved V → Option Memory
  | .plain _ | .stringPtr _ _ => some h
  | .string p => freeString h p
  | .enumCase cls member => (freeString h cls).bind (freeString · member)

-- ============================================================= tables

/-- An entry of a shared table: the string of its key, if the key is one,
and the element. -/
structure Bucket (V : Type) where
  key : Option Nat
  value : Saved V

/-- A coerced key as a caller passes it. -/
inductive KeyArg where
  | long (n : Int)
  | str (s : Arg)

def KeyArg.key : KeyArg → Key
  | .long n => .long n
  | .str s => .str s.bytes

def KeyArg.Valid (h : Memory) : KeyArg → Prop
  | .long _ => True
  | .str s => s.Valid h

/-- The string for the key of a new entry: `zend_hash_update` uses a
permanent one, `zend_hash_str_update` makes its own. -/
def newKey (A : Allocator) (h : Memory) : KeyArg → Option Nat × Memory
  | .long _ => (none, h)
  | .str s => (some (saveString A h s).1, (saveString A h s).2)

/-- `pmmpthread_store_update_shared_property`. An entry that is there keeps
the string of its key. -/
def updateSharedProperty (A : Allocator) (h : Memory)
    (t : HashTable (Bucket V)) (k : KeyArg) (v : Saved V) :
    Option (Memory × HashTable (Bucket V)) :=
  match t.find k.key with
  | some b => (storageDtor h b.value).map fun h =>
      (h, t.update true k.key ⟨b.key, v⟩)
  | none => some ((newKey A h k).2,
      t.update true k.key ⟨(newKey A h k).1, v⟩)

/-- What `zend_hash_del` frees of an entry. -/
def freeBucket (h : Memory) (b : Bucket V) : Option Memory :=
  (match b.key with
    | some p => freeString h p
    | none => some h).bind (storageDtor · b.value)

/-- The key of an entry, as `zend_hash_get_current_key_zval_ex` has it. -/
def bucketKey (h : Memory) (k : Key) (b : Bucket V) : Option KeyArg :=
  match k, b.key with
  | .long n, _ => some (.long n)
  | .str _, some p => (argAt h p).map .str
  | .str _, none => none

/-- The memory, the shared tables, and the two tables of strings that are
interned for the process: the engine's and the module's. -/
structure State (V : Type) where
  memory : Memory
  tables : TsAddr → HashTable (Bucket V)
  engine : Bytes → Option Nat
  interned : Bytes → Option Nat

namespace State

def setTable (s : State V) (a : TsAddr) (h : Memory)
    (t : HashTable (Bucket V)) : State V :=
  { s with memory := h, tables := Function.update s.tables a t }

/-- `pmmpthread_store_write`. -/
def write (A : Allocator) (s : State V) (a : TsAddr) (k : KeyArg)
    (v : Written V) : Option (State V) :=
  let r := saveZval A s.memory v
  (updateSharedProperty A r.2 (s.tables a) k r.1).map fun q =>
    s.setTable a q.1 q.2

/-- `pmmpthread_store_delete`. -/
def delete (s : State V) (a : TsAddr) (k : Key) : Option (State V) :=
  match (s.tables a).find k with
  | none => some s
  | some b => (freeBucket s.memory b).map fun h =>
      s.setTable a h ((s.tables a).del k)

/-- A read of an entry: the string of its key, and its value. -/
def read (s : State V) (a : TsAddr) (k : Key) :
    Option (Option (Content V)) :=
  match (s.tables a).find k with
  | none => some none
  | some b => (bucketKey s.memory k b).bind fun _ =>
      (restoreZval s.memory b.value).map some

/-- `pmmpthread_store_shift` and `pmmpthread_store_pop` where they come to
the entry of `k`, and each round of `pmmpthread_store_chunk`. -/
def take (s : State V) (a : TsAddr) (k : Key) : Option (State V) :=
  (s.read a k).bind fun _ => s.delete a k

/-- A round of `pmmpthread_store_merge` over a ThreadSafeArray. -/
def mergeEntry (A : Allocator) (dst src : TsAddr) (overwrite : Bool)
    (s : State V) (k : Key) : Option (State V) :=
  match (s.tables src).find k with
  | none => some s
  | some b =>
      if !overwrite && (s.tables dst).contains k then some s
      else
        (bucketKey s.memory k b).bind fun ka =>
          (hardCopyStorage A s.memory b.value).bind fun r =>
            (updateSharedProperty A r.2 (s.tables dst) ka r.1).map
              fun q => s.setTable dst q.1 q.2

def keys (s : State V) (a : TsAddr) : List Key :=
  (s.tables a).entries.map Prod.fst

def merge (A : Allocator) (s : State V) (dst src : TsAddr)
    (overwrite : Bool) : Option (State V) :=
  (s.keys src).foldlM (mergeEntry A dst src overwrite) s

/-- A round of `pmmpthread_store_merge` over an array. -/
def mergeElement (A : Allocator) (dst : TsAddr) (overwrite : Bool)
    (s : State V) (e : KeyArg × Written V) : Option (State V) :=
  if !overwrite && (s.tables dst).contains e.1.key then some s
  else s.write A dst e.1 e.2

def mergeArray (A : Allocator) (s : State V) (dst : TsAddr)
    (overwrite : Bool) (es : List (KeyArg × Written V)) :
    Option (State V) :=
  es.foldlM (mergeElement A dst overwrite) s

/-- A round of `pmmpthread_store_persist_local_properties` on thread
`t`. -/
def persistEntry (A : Allocator) (a : TsAddr) (t : ThreadId) (s : State V)
    (k : Key) : Option (State V) :=
  match (s.tables a).find k with
  | some ⟨key, .stringPtr owner bytes⟩ =>
      if owner = t then
        let r := saveString A s.memory ⟨bytes, none⟩
        some (s.setTable a r.2
          ((s.tables a).update true k ⟨key, .string r.1⟩))
      else some s
  | _ => some s

def persist (A : Allocator) (s : State V) (a : TsAddr) (t : ThreadId) :
    Option (State V) :=
  (s.keys a).foldlM (persistEntry A a t) s

/-- `pmmpthread_store_destroy`. -/
def destroy (s : State V) (a : TsAddr) : Option (State V) :=
  (s.keys a).foldlM (fun s k => s.delete a k) s

/-- `pmmpthread_globals_find_interned_string`, for a string that is not
permanent. -/
def findInternedString (s : State V) (bytes : Bytes) : Option Nat :=
  match s.engine bytes with
  | some p => some p
  | none => s.interned bytes

/-- `pmmpthread_globals_add_interned_string`. -/
def addInternedString (A : Allocator) (s : State V) (str : Arg) :
    Nat × State V :=
  match str.permanentAt with
  | some p => (p, s)
  | none =>
      match s.findInternedString str.bytes with
      | some p => (p, s)
      | none =>
          let p := s.memory.next A
          (p, { s with
            memory := s.memory.place p ⟨str.bytes, true⟩
            interned := Function.update s.interned str.bytes (some p) })

end State

-- =============================================================== runs

inductive Op (V : Type) where
  | write (a : TsAddr) (k : KeyArg) (v : Written V)
  | delete (a : TsAddr) (k : Key)
  | take (a : TsAddr) (k : Key)
  | merge (dst src : TsAddr) (overwrite : Bool)
  | persist (a : TsAddr) (t : ThreadId)
  | destroy (a : TsAddr)
  | addInternedString (s : Arg)
  /-- The opcode cache has a new string. -/
  | cache (bytes : Bytes)

namespace State

/-- One call; `none` if it uses a string that was freed. -/
def step (A : Allocator) (s : State V) : Op V → Option (State V)
  | .write a k v => s.write A a k v
  | .delete a k => s.delete a k
  | .take a k => s.take a k
  | .merge dst src overwrite => s.merge A dst src overwrite
  | .persist a t => s.persist A a t
  | .destroy a => s.destroy a
  | .addInternedString str => some (s.addInternedString A str).2
  | .cache bytes => some { s with
      memory := s.memory.place (s.memory.next A) ⟨bytes, true⟩ }

def run (A : Allocator) (s : State V) (ops : List (Op V)) :
    Option (State V) :=
  ops.foldlM (step A) s

/-- The entries of a table in their order, as they are read; `none` where
a string was freed. -/
def view (s : State V) (a : TsAddr) : List (Key × Option (Content V)) :=
  mapVals (fun b => restoreZval s.memory b.value) (s.tables a).entries

/-- The process before the first call, with the engine's strings. -/
def init (h : Memory) (engine : Bytes → Option Nat) : State V where
  memory := h
  tables _ := .init 8
  engine := engine
  interned _ := none

/-- The names of an enum case are permanent. -/
def Permanent (s : State V) (v : Saved V) : Prop :=
  ∀ cls member, v = .enumCase cls member →
    (∃ b, s.memory.get cls = some ⟨b, true⟩)
      ∧ ∃ b, s.memory.get member = some ⟨b, true⟩

/-- Callers pass strings as they are, and what a merge copies has no name
of an enum case that a table owns. -/
def Allows (s : State V) : Op V → Prop
  | .write _ k v =>
      k.Valid s.memory ∧ v.Valid s.memory
  | .merge dst src overwrite =>
      ∀ k b, (s.tables src).find k = some b →
        overwrite = true ∨ (s.tables dst).find k = none → s.Permanent b.value
  | .addInternedString str => str.Valid s.memory
  | _ => True

def Allowed (A : Allocator) : State V → List (Op V) → Prop
  | _, [] => True
  | s, op :: ops => s.Allows op ∧ ∀ s', s.step A op = some s' →
      Allowed A s' ops

def Forever (s : State V) (p : Nat) : Prop :=
  ∃ bytes, s.memory.get p = some ⟨bytes, true⟩

/-- No name of the entry is one that another table has. -/
def Sole (s : State V) (a : TsAddr) (k : Key) : Prop :=
  ∀ b, (s.tables a).find k = some b → ∀ p ∈ b.value.names,
    s.Forever p ∨ ∀ a' b', a' ≠ a → (s.tables a').find k = some b' →
      p ∉ b'.value.names

/-- An entry that the merge replaces has no name of the one that it is
replaced by. -/
def Unshared (s : State V) (dst src : TsAddr) (overwrite : Bool) : Prop :=
  overwrite = true → ∀ k b b', (s.tables src).find k = some b →
    (s.tables dst).find k = some b' →
    ∀ p ∈ b.value.names, p ∈ b'.value.names → s.Forever p

/-- Callers pass strings as they are, and no name is freed that an entry
has after the call. -/
def Spares (s : State V) : Op V → Prop
  | .write a k v => k.Valid s.memory ∧ v.Valid s.memory ∧ s.Sole a k.key
  | .delete a k | .take a k => s.Sole a k
  | .merge dst src overwrite => s.Unshared dst src overwrite
      ∧ (overwrite = true → ∀ k, (s.tables src).contains k = true →
        s.Sole dst k)
  | .destroy a => ∀ k, s.Sole a k
  | .addInternedString str => str.Valid s.memory
  | .persist _ _ | .cache _ => True

def Spared (A : Allocator) : State V → List (Op V) → Prop
  | _, [] => True
  | s, op :: ops => s.Spares op ∧ ∀ s', s.step A op = some s' →
      Spared A s' ops

end State

-- ======================================================= plain tables

/-- The shared tables as finite maps of values. -/
abbrev Contents (V : Type) := TsAddr → Key → Option (Content V)

namespace Contents

def set (c : Contents V) (a : TsAddr) (k : Key) (v : Option (Content V)) :
    Contents V :=
  fun a' k' => if a' = a ∧ k' = k then v else c a' k'

/-- What a call does to the values, memory left aside. -/
def apply (c : Contents V) : Op V → Contents V
  | .write a k v => c.set a k.key (some v.content)
  | .delete a k | .take a k => c.set a k none
  | .merge dst src overwrite => fun a k =>
      if a = dst ∧ (overwrite = true ∨ c dst k = none) then
        (c src k).or (c a k)
      else c a k
  | .destroy a => fun a' k => if a' = a then none else c a' k
  | .persist _ _ | .addInternedString _ | .cache _ => c

end Contents

end PmmpThread.Model.SharedStrings
