/-
The ini settings of a new thread: `pmmpthread_prepare_ini`
(src/prepare.c).

The creator's values are given to the directives that the thread has too.
A directive's `on_modify` is the engine's or an extension's; what it does
is done to a state of theirs, and what it answers is not looked at. A
directive may have none.

# What is left out

The two directives of the session that are set first if the thread may
not send headers: that is the engine's `zend_alter_ini_entry_chars`, and
the table here is the one it leaves. What `on_modify` could see of
`modifiable`, which is restored after it.
-/
import PmmpThread.Model.Value

namespace PmmpThread.Model.Ini

open Zend

/-- A `zend_ini_entry`. -/
structure Entry (σ : Type) where
  value : Option Bytes
  origValue : Option Bytes
  modifiable : Nat
  origModifiable : Nat
  modified : Bool
  onModify : Option (Bytes → σ → σ)

/-- `EG(ini_directives)`, the names of `EG(modified_ini_directives)`, and
what the `on_modify` functions change. -/
structure Directives (σ : Type) where
  table : HashTable (Entry σ)
  modified : List Key
  state : σ

/-- The part of a string that `strcmp` looks at. -/
def cString (v : Bytes) : Bytes := v.takeWhile (· ≠ 0)

variable {σ : Type}

/-- The value that a directive of the thread is given: both have one, and
they differ. -/
def inherits (e₀ e₁ : Entry σ) : Option Bytes :=
  match e₀.value, e₁.value with
  | some v₀, some v₁ => if cString v₀ = cString v₁ then none else some v₀
  | _, _ => none

/-- A directive with a new value; what it had before the first change is
kept for the end of the request. -/
def Entry.alter (e : Entry σ) (v : Bytes) : Entry σ :=
  if e.modified then { e with value := some v }
  else
    { e with
      value := some v
      origValue := e.value
      origModifiable := e.modifiable
      modified := true }

/-- One round of the loop; `none` is a call through a null `on_modify`. -/
def prepareDirective (p : Directives σ) (e : Key × Entry σ) :
    Option (Directives σ) :=
  match p.table.find e.1 with
  | none => some p
  | some e₁ =>
      match inherits e.2 e₁ with
      | none => some p
      | some v =>
          e₁.onModify.map fun f =>
            { table := p.table.update true e.1 (e₁.alter v)
              modified :=
                if e₁.modified then p.modified else p.modified ++ [e.1]
              state := f v p.state }

/-- `pmmpthread_prepare_ini`. -/
def prepareIni (creator : HashTable (Entry σ)) (p : Directives σ) :
    Option (Directives σ) :=
  creator.entries.foldlM prepareDirective p

-- ============================================================ what it is for

/-- The changes of the loop, in the creator's order. -/
def changes (p : Directives σ) (es : List (Key × Entry σ)) :
    List (Key × Bytes) :=
  es.filterMap fun e =>
    ((p.table.find e.1).bind (inherits e.2)).map fun v => (e.1, v)

/-- The directives that change for the first time in the request. -/
def firstChanges (p : Directives σ) (es : List (Key × Entry σ)) : List Key :=
  ((changes p es).map Prod.fst).filter fun k =>
    !(p.table.find k).any Entry.modified

/-- The call of the `on_modify` of a directive of `p`. -/
def notify (p : Directives σ) (s : σ) (c : Key × Bytes) : σ :=
  match (p.table.find c.1).bind Entry.onModify with
  | some f => f c.2 s
  | none => s

/-- The value that a directive has again when the request ends. -/
def Entry.restored (e : Entry σ) : Option Bytes :=
  if e.modified then e.origValue else e.value

end PmmpThread.Model.Ini
