/-
Copies of classes: `pmmpthread_create_entry`, the late bindings and
`pmmpthread_prepare_classes` (src/prepare.c).

# Two threads

The creator's class entries do not change while they are copied. The new
thread has an arena of entries, its class table, and `resolve`, which
keeps one copy of each function and of each property info: a copy is
named here by what it is a copy of, and only what may differ from it is
kept. Pointers to class entries in a copy may be to entries of either
thread (`Ref`); an internal class is one entry for all threads.

# Recursion

`pmmpthread_prepared_entry` is the argument `rec` of the functions that
call it, and `create` ties the knot, with fuel for the depth. `none` is
the fatal error of a constant that cannot be copied, or fuel that does
not suffice. What is left out copies no class: attributes, doc comments,
file names, trait names, magic methods, handlers; and of PHP 8.4 the
property hooks. Values are those that matter here: an enum case is an
object of a class entry.
-/
import Mathlib.Logic.Function.Basic
import PmmpThread.Model.Constants

namespace PmmpThread.Model.Classes

open Constants (lower)

/-- A `zend_class_entry` of the creator, a function, a property info, by
address. -/
abbrev ClassId := Nat
abbrev FuncId := Nat
abbrev InfoId := Nat

/-- A `zend_class_entry` of the new thread. -/
abbrev Addr := Nat
abbrev Bytes := List UInt8

/-- `zend_class_entry *`. -/
inductive Ref where
  | creator (c : ClassId)
  | own (a : Addr)
  deriving DecidableEq, Repr

-- ============================================================= the creator

inductive Value where
  /-- What `pmmpthread_copy_zval` copies without a class. -/
  | plain (code : Nat)
  | enumCase (cls : ClassId) (name : Bytes)
  /-- What it does not copy. -/
  | other
  deriving DecidableEq

/-- The class of an enum case. -/
def Value.cls? : Value → Option ClassId
  | .enumCase cls _ => some cls
  | _ => none

/-- `zend_class_constant`. -/
structure Constant where
  value : Value
  /-- `ZEND_CLASS_CONST_IS_CASE`. -/
  isCase : Bool
  ce : ClassId

/-- `zend_property_info`. `types` are the class names in its type. -/
structure PropInfo where
  ce : ClassId
  offset : Nat
  types : List Bytes

structure ClassEntry where
  name : Bytes
  /-- `ZEND_INTERNAL_CLASS`. -/
  internal : Bool
  /-- `ZEND_ACC_PRELOADED`, `_IMMUTABLE`, `_ANON_CLASS`, `_LINKED`,
  `_ENUM`. -/
  preloaded : Bool
  immutable : Bool
  anon : Bool
  linked : Bool
  isEnum : Bool
  parent : Option ClassId
  interfaces : List ClassId
  functionTable : List (Bytes × FuncId)
  propertiesInfo : List (Bytes × InfoId)
  defaultProperties : List Value
  /-- `default_static_members_table`, with the indirections followed. -/
  defaultStatics : List Value
  constants : List (Bytes × Constant)

structure Creator where
  classes : ClassId → ClassEntry
  scope : FuncId → Option ClassId
  info : InfoId → PropInfo
  classTable : List (Bytes × ClassId)

-- ========================================================== the new thread

/-- A value of the new thread. -/
inductive CopyVal where
  | null
  | plain (code : Nat)
  /-- The object of an enum case of the class entry. -/
  | enumCase (cls : Ref) (name : Bytes)
  deriving DecidableEq

/-- A `default_static_members_table`. -/
inductive Table where
  | creator (c : ClassId)
  | own (t : Nat)
  deriving DecidableEq

inductive Slot where
  | value (v : CopyVal)
  /-- The creator's value, which `memcpy` left. -/
  | raw (v : Value)
  | indirect (t : Table) (i : Nat)
  deriving DecidableEq

structure ConstCopy where
  value : CopyVal
  ce : Ref

structure InfoCopy where
  ce : Ref
  offset : Nat

/-- A class entry of the new thread; `origin` is what it was made from,
which the code does not keep. -/
structure Entry where
  origin : ClassId
  name : Bytes
  anon : Bool
  linked : Bool
  isEnum : Bool
  parent : Option Ref
  interfaces : List Ref
  functionTable : List (Bytes × FuncId)
  propertiesInfo : List (Bytes × InfoId)
  defaultProperties : List CopyVal
  defaultStatics : Option Nat
  constants : List (Bytes × ConstCopy)

structure Child where
  entries : List Entry
  /-- `EG(class_table)`, which is `CG(class_table)`. -/
  classTable : List (Bytes × Ref)
  /-- `resolve`: the scope of the copy of a function. -/
  scopes : FuncId → Option (Option Ref)
  infos : InfoId → Option InfoCopy
  tables : List (List Slot)

/-- `pmmpthread_prepared_entry`. -/
abbrev Prepared := Ref → Child → Option (Ref × Child)

namespace Child

def find (s : Child) (k : Bytes) : Option Ref := s.classTable.lookup k

/-- `zend_hash_update_ptr` on a list of pairs. -/
def updateList (k : Bytes) (r : Ref) : List (Bytes × Ref) → List (Bytes × Ref)
  | [] => [(k, r)]
  | e :: es => if e.1 = k then (k, r) :: es else e :: updateList k r es

def update (s : Child) (k : Bytes) (r : Ref) : Child :=
  { s with classTable := updateList k r s.classTable }

def setEntry (s : Child) (a : Addr) (f : Entry → Entry) : Child :=
  { s with entries := s.entries.modify a f }

def setScope (s : Child) (f : FuncId) (r : Ref) : Child :=
  { s with scopes := Function.update s.scopes f (some (some r)) }

def setInfo (s : Child) (i : InfoId) (c : InfoCopy) : Child :=
  { s with infos := Function.update s.infos i (some c) }

/-- The class name behind a pointer. -/
def nameOf (C : Creator) (s : Child) : Ref → Bytes
  | .creator c => (C.classes c).name
  | .own a => (s.entries[a]?.map Entry.name).getD []

/-- `parent`, for a linked class. -/
def parentOf (C : Creator) (s : Child) : Ref → Option Ref
  | .creator c => (C.classes c).parent.map .creator
  | .own a => s.entries[a]?.bind Entry.parent

/-- `default_static_members_table` and its number of elements. -/
def staticsOf (C : Creator) (s : Child) : Ref → Option (Table × Nat)
  | .creator c =>
      if (C.classes c).defaultStatics.isEmpty then none
      else some (.creator c, (C.classes c).defaultStatics.length)
  | .own a =>
      (s.entries[a]?.bind Entry.defaultStatics).map fun t =>
        (.own t, ((s.tables[t]?).getD []).length)

/-- `default_static_members_count` of a parent, 0 if there is none. -/
def staticsCount (C : Creator) (s : Child) (parent : Option Ref) : Nat :=
  ((parent.bind (s.staticsOf C)).map Prod.snd).getD 0

/-- The class is an enum and has a constant of that name. -/
def hasCase (C : Creator) (s : Child) (name : Bytes) : Ref → Bool
  | .creator c => (C.classes c).isEnum
      && (C.classes c).constants.any fun e => e.1 == name
  | .own a => s.entries[a]?.any fun e =>
      e.isEnum && e.constants.any fun k => k.1 == name

end Child

namespace Creator

variable (C : Creator)

/-- `zend_lookup_class` finds these. -/
def builtin : Ref → Bool
  | .creator c => (C.classes c).internal || (C.classes c).preloaded
  | .own _ => false

/-- `ZEND_USER_CLASS`. -/
def isUser : Ref → Bool
  | .creator c => !(C.classes c).internal
  | .own _ => true

-- =============================================================== complete

/-- `pmmpthread_prepared_entry`, one class after the other. -/
def prepareAll (rec : Prepared) : List Ref → Child →
    Option (List Ref × Child)
  | [], s => some ([], s)
  | r :: rs, s =>
      (rec r s).bind fun q =>
        (prepareAll rec rs q.2).map fun qs => (q.1 :: qs.1, qs.2)

def prepareParent (rec : Prepared) (x : ClassEntry) (a : Addr) (s : Child) :
    Option Child :=
  if x.linked then
    match x.parent with
    | some p => (rec (.creator p) s).map fun q =>
        q.2.setEntry a fun e => { e with parent := some q.1 }
    | none => some s
  else some s

/-- An entry that is not linked has the names of its interfaces only. -/
def prepareInterfaces (rec : Prepared) (x : ClassEntry) (a : Addr)
    (s : Child) : Option Child :=
  if x.linked then
    (prepareAll rec (x.interfaces.map .creator) s).map fun q =>
      q.2.setEntry a fun e => { e with interfaces := q.1 }
  else some s

/-- `pmmpthread_copy_function`: the scope of a new copy is the creator's. -/
def copyFunction (s : Child) (f : FuncId) : Child :=
  match s.scopes f with
  | some _ => s
  | none =>
      { s with scopes :=
          Function.update s.scopes f (some ((C.scope f).map .creator)) }

/-- One round of `prepare_class_function_table`. -/
def prepareFunction (a : Addr) (s : Child) (e : Bytes × FuncId) : Child :=
  if s.entries[a]?.any fun x => x.functionTable.any fun f => f.1 == e.1 then s
  else (C.copyFunction s e.2).setEntry a fun x =>
    { x with functionTable := x.functionTable ++ [e] }

/-- `pmmpthread_complete_entry`. -/
def completeEntry (rec : Prepared) (c : ClassId) (a : Addr) (s : Child) :
    Option Child :=
  let x := C.classes c
  (prepareParent rec x a (s.setEntry a fun e =>
    { e with linked := x.linked })).bind fun s =>
      (prepareInterfaces rec x a s).map fun s =>
        x.functionTable.foldl (C.prepareFunction a) s

-- ========================================================== late bindings

/-- `pmmpthread_copy_zval`: the inner `none` is `FAILURE`. An enum case is
looked up in the class on the new thread. -/
def copyValue (rec : Prepared) (s : Child) :
    Value → Option (Option CopyVal × Child)
  | .plain code => some (some (.plain code), s)
  | .enumCase cls name =>
      (rec (.creator cls) s).map fun q =>
        (if q.2.hasCase C name q.1 then some (.enumCase q.1 name) else none,
          q.2)
  | .other => some (none, s)

/-- `copy_property_info`. -/
def copyInfo (rec : Prepared) (c : ClassId) (a : Addr) (s : Child)
    (i : InfoId) : Option Child :=
  match s.infos i with
  | some _ => some s
  | none =>
      let info := C.info i
      let s := s.setInfo i ⟨.creator info.ce, info.offset⟩
      if info.ce = c then some (s.setInfo i ⟨.own a, info.offset⟩)
      else (rec (.creator info.ce) s).map fun q =>
        q.2.setInfo i ⟨q.1, info.offset⟩

/-- One round of the first loop of `prepare_class_property_table`: an info
that is there stays as it is. -/
def prepareInfo (rec : Prepared) (c : ClassId) (a : Addr) (s : Child)
    (e : Bytes × InfoId) : Option Child :=
  if s.entries[a]?.any fun x => x.propertiesInfo.any fun f => f.1 == e.1 then
    some s
  else (C.copyInfo rec c a s e.2).map fun s => s.setEntry a fun x =>
    { x with propertiesInfo := x.propertiesInfo ++ [e] }

/-- Default values; one that cannot be copied is null. -/
def copyDefaults (rec : Prepared) : List Value → Child →
    Option (List CopyVal × Child)
  | [], s => some ([], s)
  | v :: vs, s =>
      (C.copyValue rec s v).bind fun q =>
        (copyDefaults rec vs q.2).map fun qs =>
          (q.1.getD .null :: qs.1, qs.2)

/-- `prepare_class_property_table`. -/
def preparePropertyTable (rec : Prepared) (c : ClassId) (a : Addr)
    (s : Child) : Option Child :=
  let x := C.classes c
  (x.propertiesInfo.foldlM (C.prepareInfo rec c a) s).bind fun s =>
    (C.copyDefaults rec x.defaultProperties s).map fun q =>
      q.2.setEntry a fun e => { e with defaultProperties := q.1 }

/-- The statics of the class itself, the last one first. -/
def copySlots (rec : Prepared) : List Value → Child →
    Option (List Slot × Child)
  | [], s => some ([], s)
  | v :: vs, s =>
      (copySlots rec vs s).bind fun qs =>
        (C.copyValue rec qs.2 v).map fun q =>
          ((match q.1 with
            | some w => .value w
            | none => .raw v) :: qs.1, q.2)

/-- The indirections to the statics of `parent` and its ancestors. -/
def inheritedSlots (s : Child) : Nat → Option Ref → Option (List Slot)
  | 0, _ => none
  | _ + 1, none => some []
  | fuel + 1, some r =>
      match s.staticsOf C r with
      | none => some []
      | some (t, n) =>
          let m := s.staticsCount C (s.parentOf C r)
          (inheritedSlots s fuel (s.parentOf C r)).map fun slots =>
            slots ++ (List.range' m (n - m)).map (.indirect t)

/-- `prepare_class_statics`: the table is a new one. -/
def prepareStatics (fuel : Nat) (rec : Prepared) (c : ClassId) (a : Addr)
    (s : Child) : Option Child :=
  let x := C.classes c
  if x.defaultStatics.isEmpty then some s
  else
    let parent := s.entries[a]?.bind fun e =>
      if e.linked then e.parent else none
    let n := s.staticsCount C parent
    (C.copySlots rec (x.defaultStatics.drop n) s).bind fun q =>
      (C.inheritedSlots q.2 fuel parent).map fun slots =>
        { q.2 with tables := q.2.tables ++ [slots ++ q.1] }.setEntry a
          fun e => { e with defaultStatics := some q.2.tables.length }

/-- The value of a constant: a case of the class itself is a new object,
another value is copied or the request ends. -/
def constantValue (rec : Prepared) (a : Addr) (s : Child) (zc : Constant) :
    Option (CopyVal × Child) :=
  match zc.isCase, zc.value with
  | true, .enumCase _ name => some (.enumCase (.own a) name, s)
  | _, v => (C.copyValue rec s v).bind fun q =>
      q.1.map fun w => (w, q.2)

/-- One round of `prepare_class_constants`. -/
def prepareConstant (rec : Prepared) (a : Addr) (s : Child)
    (e : Bytes × Constant) : Option Child :=
  if s.entries[a]?.any fun x => x.constants.any fun k => k.1 == e.1 then some s
  else
    (C.constantValue rec a s e.2).bind fun q =>
      (rec (.creator e.2.ce) q.2).map fun p =>
        p.2.setEntry a fun x =>
          { x with constants := x.constants ++ [(e.1, ⟨q.1, p.1⟩)] }

/-- `pmmpthread_prepared_entry_late_bindings`. -/
def lateBindings (fuel : Nat) (rec : Prepared) (c : ClassId) (a : Addr)
    (s : Child) : Option Child :=
  if (C.classes c).immutable then some s
  else
    (C.preparePropertyTable rec c a s).bind fun s =>
      (C.prepareStatics fuel rec c a s).bind fun s =>
        (C.classes c).constants.foldlM (C.prepareConstant rec a) s

-- ================================================================= create

/-- `pmmpthread_update_function_scope`. -/
def updateFunctionScope (rec : Prepared) (c : ClassId) (a : Addr) (s : Child)
    (f : FuncId) : Option Child :=
  match s.scopes f with
  | some (some r) =>
      if r = .creator c then some (s.setScope f (.own a))
      else if C.isUser r then (rec r s).map fun q => q.2.setScope f q.1
      else some s
  | _ => some s

/-- `pmmpthread_prepared_entry_function_prepare` on the function table. -/
def updateScopes (rec : Prepared) (c : ClassId) (a : Addr) (s : Child) :
    Option Child :=
  ((s.entries[a]?.map Entry.functionTable).getD []).foldlM
    (fun s e => C.updateFunctionScope rec c a s e.2) s

/-- The new entry of `pmmpthread_copy_entry`. -/
def newEntry (c : ClassId) : Entry :=
  let x := C.classes c
  { origin := c, name := x.name, anon := x.anon, linked := x.linked,
    isEnum := x.isEnum, parent := none, interfaces := [], functionTable := [],
    propertiesInfo := [], defaultProperties := [], defaultStatics := none,
    constants := [] }

/-- `pmmpthread_prepare_immutable_class_dependencies`. -/
def immutableDependencies (x : ClassEntry) : List Ref :=
  (if x.linked then x.parent.toList.map .creator
      ++ x.interfaces.map .creator else [])
    ++ (x.propertiesInfo.flatMap fun e => (C.info e.2).types.filterMap
      fun name => (C.classTable.lookup (lower name)).map .creator)

/-- What `pmmpthread_create_entry` does for a class that is not on the new
thread; `dep` is the call for a dependency of an immutable class. -/
def createNew (fuel : Nat) (rec dep : Prepared) (c : ClassId)
    (lateBind : Bool) (s : Child) : Option (Ref × Child) :=
  let x := C.classes c
  let key := lower x.name
  if x.immutable then
    (prepareAll dep (C.immutableDependencies x)
      (s.update key (.creator c))).map fun q => (.creator c, q.2)
  else
    let a := s.entries.length
    (C.completeEntry rec c a
      { s with entries := s.entries ++ [C.newEntry c] }).bind fun s =>
        let s := s.update key (.own a)
        (if lateBind then C.lateBindings fuel rec c a s else some s).bind
          fun s => (C.updateScopes rec c a s).map fun s => (.own a, s)

/-- An anonymous class that was copied before it was linked. -/
def isUnbound (s : Child) : Ref → Bool
  | .creator c => (C.classes c).anon && !(C.classes c).linked
  | .own a => s.entries[a]?.any fun e => e.anon && !e.linked

def isBound (s : Child) : Ref → Bool
  | .creator c => (C.classes c).anon && (C.classes c).linked
  | .own a => s.entries[a]?.any fun e => e.anon && e.linked

/-- `pmmpthread_create_entry`. -/
def create : Nat → Ref → Bool → Child → Option (Ref × Child)
  | 0, _, _, _ => none
  | fuel + 1, r, lateBind, s =>
      let rec_ := fun r s => create fuel r true s
      let dep := fun r s => create fuel r lateBind s
      if C.builtin r then (s.find (lower (s.nameOf C r))).map fun p => (p, s)
      else
        match s.find (lower (s.nameOf C r)), r with
        | none, .creator c => C.createNew fuel rec_ dep c lateBind s
        | none, .own _ => none
        | some p, r =>
            if C.isUnbound s p && C.isBound s r then
              match p, r with
              | .own a, .creator c =>
                  (C.completeEntry rec_ c a s).bind fun s =>
                    (if lateBind then C.lateBindings fuel rec_ c a s
                      else some s).map fun s => (p, s)
              | .creator _, .creator c =>
                  C.createNew fuel rec_ dep c lateBind s
              | _, .own _ => some (p, s)
            else some (p, s)

-- ============================================================ thread start

/-- The first byte of a key, as C sees it, is a NUL: the key of a class that
is not declared yet. -/
def startsNul (k : Bytes) : Bool := k.headD 0 == 0

/-- One round of `pmmpthread_prepare_classes`. -/
def prepareClass (fuel : Nat) (s : Child) (e : Bytes × ClassId) :
    Option Child :=
  if (s.find e.1).isNone && !startsNul e.1 then
    (C.create fuel (.creator e.2) false s).map Prod.snd
  else some s

/-- One round of `pmmpthread_context_late_bindings`. -/
def contextLateBinding (fuel : Nat) (s : Child) (e : Bytes × Ref) :
    Option Child :=
  match e.2 with
  | .own a =>
      (C.classTable.lookup e.1).bind fun c =>
        C.lateBindings fuel (fun r s => C.create fuel r true s) c a s
  | .creator _ => some s

/-- `pmmpthread_prepare_classes`. -/
def prepareClasses (fuel : Nat) (s : Child) : Option Child :=
  (C.classTable.foldlM (C.prepareClass fuel) s).bind fun s =>
    s.classTable.foldlM (C.contextLateBinding fuel) s

end Creator

end PmmpThread.Model.Classes
