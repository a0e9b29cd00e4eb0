/-
Which property writes and unsets respect readonly properties and set
visibility.

A call changes the store in one way only: past the magic methods and the
hooks it sets or removes one member (`changes_iff`). Nothing
on that way looks at readonly or at the set visibility, so the properties
are protected exactly as long as no call takes it against them.
-/
import PmmpThread.Model.Property
import PmmpThread.Proofs.Tables

namespace PmmpThread.Model

open Zend HashTable

variable {Z V : Type} {C : ClassEntry Z V}

namespace PropertyCall

-- ========================================================= the one way

/-- The stored member that a call addresses when neither a magic method
nor a hook nor an error comes first. -/
def member (C : ClassEntry Z V) : PropertyCall Z → Option Key
  | .write f member _ _ =>
      if C.magicSet && !f.guarded then none
      else
        match C.getPropertyInfo f.scope member with
        | .wrong => none
        | .dynamic => some (coerceString member)
        | .found info =>
            if info.isStatic then some (coerceString member)
            else if C.setAction f info = .plain then some info.key
            else none
  | .unset f member =>
      if C.magicUnset && !f.guarded then none
      else
        match C.getPropertyInfo f.scope member with
        | .wrong => none
        | .dynamic => some (coerceString member)
        | .found info =>
            if info.isStatic then some (coerceString member)
            else if info.hooks.isSome then none
            else some info.key

/-- The value as the type of the property has it, if it has one. -/
def verified (C : ClassEntry Z V) (f : CallFrame) (member : List UInt8)
    (value : Z) : Option Z :=
  match C.getPropertyInfo f.scope member with
  | .found info =>
      if info.isStatic || !info.typed then some value
      else C.verifyPropertyType info f.strict value
  | .wrong | .dynamic => some value

/-- What the member is to hold: nothing after an unset, and no answer
when the value fails the type check or cannot be stored. -/
def content (C : ClassEntry Z V) : PropertyCall Z → Option (Option V)
  | .write f member value _ =>
      ((verified C f member value).bind C.saveZval).map some
  | .unset _ _ => some none

/-- The two ways a call can end: the store is as it was, or one member has
a new content. -/
def Ends (C : ClassEntry Z V) (s : Store V) (c : PropertyCall Z)
    (r : PropertyResult × Store V) : Prop :=
  (r.2 = s ∧ (c.member C = none ∨ c.content C = none))
    ∨ ∃ k v, c.member C = some k ∧ c.content C = some v ∧ r.1 = .done
      ∧ ∀ k', r.2.hash.find k' = if k' = k then v else s.hash.find k'

theorem ends_storeWrite {s : Store V} {c : PropertyCall Z} {k : Key}
    {value : Z} (compact : Bool) (hm : c.member C = some k)
    (hc : c.content C = (C.saveZval value).map some) :
    c.Ends C s (C.storeWrite s k value compact) := by
  unfold ClassEntry.storeWrite
  cases hs : C.saveZval value with
  | none => exact Or.inl ⟨rfl, Or.inr (by rw [hc, hs]; rfl)⟩
  | some v =>
      refine Or.inr ⟨k, some v, hm, by rw [hc, hs]; rfl, rfl, fun k' => ?_⟩
      exact Store.find_write s (some k) v compact k'

theorem ends_delete {s : Store V} {c : PropertyCall Z} {k : Key}
    (hm : c.member C = some k) (hc : c.content C = some none) :
    c.Ends C s (.done, s.delete k) :=
  Or.inr ⟨k, none, hm, hc, rfl, fun k' => Store.find_delete s k k'⟩

theorem ends_writeProperty (s : Store V) (f : CallFrame) (m : List UInt8)
    (value : Z) (compact : Bool) :
    (write f m value compact).Ends C s
      (C.writeProperty f s m value compact) := by
  unfold ClassEntry.writeProperty
  by_cases hmagic : (C.magicSet && !f.guarded) = true
  · rw [if_pos hmagic]
    exact Or.inl ⟨rfl, Or.inl (by simp [member, hmagic])⟩
  · rw [if_neg hmagic]
    cases hl : C.getPropertyInfo f.scope m with
    | wrong => exact Or.inl ⟨rfl, Or.inl (by simp [member, hl])⟩
    | dynamic =>
        refine ends_storeWrite compact ?_ ?_
        · simp [member, hmagic, hl]
        · simp [content, verified, hl]
    | found info =>
        dsimp only
        by_cases hstatic : info.isStatic = true
        · rw [if_pos hstatic]
          refine ends_storeWrite compact ?_ ?_
          · simp [member, hmagic, hl, hstatic]
          · simp [content, verified, hl, hstatic]
        · rw [if_neg hstatic]
          cases ha : C.setAction f info with
          | fail e =>
              exact Or.inl ⟨rfl, Or.inl (by simp [member, hl, hstatic, ha])⟩
          | callHook =>
              exact Or.inl ⟨rfl, Or.inl (by simp [member, hl, hstatic, ha])⟩
          | plain =>
              have hm : (write f m value compact).member C
                  = some info.key := by
                simp [member, hmagic, hl, hstatic, ha]
              dsimp only
              by_cases htyped : info.typed = true
              · rw [if_pos htyped]
                cases hv : C.verifyPropertyType info f.strict value with
                | none =>
                    refine Or.inl ⟨rfl, Or.inr ?_⟩
                    simp [content, verified, hl, hstatic, htyped, hv]
                | some z =>
                    refine ends_storeWrite compact hm ?_
                    simp [content, verified, hl, hstatic, htyped, hv]
              · rw [if_neg htyped]
                refine ends_storeWrite compact hm ?_
                simp [content, verified, hl, htyped]

theorem ends_unsetProperty (s : Store V) (f : CallFrame)
    (m : List UInt8) :
    (unset f m : PropertyCall Z).Ends C s (C.unsetProperty f s m) := by
  unfold ClassEntry.unsetProperty
  by_cases hmagic : (C.magicUnset && !f.guarded) = true
  · rw [if_pos hmagic]
    exact Or.inl ⟨rfl, Or.inl (by simp [member, hmagic])⟩
  · rw [if_neg hmagic]
    cases hl : C.getPropertyInfo f.scope m with
    | wrong => exact Or.inl ⟨rfl, Or.inl (by simp [member, hl])⟩
    | dynamic => exact ends_delete (by simp [member, hmagic, hl]) rfl
    | found info =>
        dsimp only
        by_cases hstatic : info.isStatic = true
        · rw [if_pos hstatic]
          exact ends_delete (by simp [member, hmagic, hl, hstatic]) rfl
        · rw [if_neg hstatic]
          by_cases hhooks : info.hooks.isSome = true
          · rw [if_pos hhooks]
            exact Or.inl ⟨rfl, Or.inl
              (by simp [member, hl, hstatic, hhooks])⟩
          · rw [if_neg hhooks]
            exact ends_delete
              (by simp [member, hmagic, hl, hstatic, hhooks]) rfl

theorem ends_apply (C : ClassEntry Z V) (s : Store V)
    (c : PropertyCall Z) : c.Ends C s (c.apply C s) := by
  cases c with
  | write f m value compact => exact ends_writeProperty s f m value compact
  | unset f m => exact ends_unsetProperty s f m

-- ========================================================== protection

/-- The call goes past the magic methods and the hooks to the stored
value of a declared property that it may not change: an initialised
readonly one, or one with restricted set visibility from a scope without
set access. -/
def Offends (C : ClassEntry Z V) (s : Store V) (c : PropertyCall Z) :
    Prop :=
  ∃ info ∈ C.declared, c.member C = some info.key
    ∧ (∃ v, c.content C = some v ∧ v ≠ s.hash.find info.key)
    ∧ (info.isReadonly = true ∧ s.hash.find info.key ≠ none
      ∨ info.setMask = true ∧ C.hasSetAccess c.frame.scope info = false)

/-- What the engine promises about a call. -/
def Respects (C : ClassEntry Z V) (s : Store V) (c : PropertyCall Z) :
    Prop :=
  (∀ info ∈ C.declared,
    (info.isReadonly = true → s.hash.find info.key ≠ none →
      (c.apply C s).2.hash.find info.key = s.hash.find info.key)
    ∧ (info.setMask = true →
      (c.apply C s).2.hash.find info.key ≠ s.hash.find info.key →
      C.hasSetAccess c.frame.scope info = true))
    ∧ ∀ e, (c.apply C s).1 = .error e → (c.apply C s).2 = s

/-- Whose value a call changes. -/
theorem changes_iff (s : Store V) (c : PropertyCall Z) (k : Key) :
    (c.apply C s).2.hash.find k ≠ s.hash.find k
      ↔ c.member C = some k ∧ ∃ v, c.content C = some v
        ∧ v ≠ s.hash.find k := by
  rcases ends_apply C s c with ⟨hs, hnone⟩ | ⟨k', v, hm, hc, -, hfind⟩
  · rw [hs]
    rcases hnone with hnone | hnone <;> simp [hnone]
  · rw [hfind, hm, hc]
    by_cases hk : k = k'
    · simp [hk]
    · simp [hk, Ne.symm hk]

theorem apply_error {s : Store V} {c : PropertyCall Z} {e : PropertyError}
    (h : (c.apply C s).1 = .error e) : (c.apply C s).2 = s := by
  rcases ends_apply C s c with ⟨hs, -⟩ | ⟨k, v, -, -, hdone, -⟩
  · exact hs
  · rw [hdone] at h
    cases h

theorem respects_iff (s : Store V) (c : PropertyCall Z) :
    c.Respects C s ↔ ¬ c.Offends C s := by
  constructor
  · rintro ⟨hr, -⟩ ⟨info, hi, hm, hv, hwhy⟩
    have hchange := (changes_iff (C := C) s c info.key).mpr ⟨hm, hv⟩
    rcases hwhy with ⟨hro, hinit⟩ | ⟨hset, hacc⟩
    · exact hchange ((hr info hi).1 hro hinit)
    · rw [(hr info hi).2 hset hchange] at hacc
      cases hacc
  · intro ho
    refine ⟨fun info hi => ⟨fun hro hinit => ?_, fun hset hchange => ?_⟩,
      fun e he => apply_error he⟩
    · by_contra hchange
      obtain ⟨hm, hv⟩ := (changes_iff s c info.key).mp hchange
      exact ho ⟨info, hi, hm, hv, Or.inl ⟨hro, hinit⟩⟩
    · by_contra hacc
      obtain ⟨hm, hv⟩ := (changes_iff s c info.key).mp hchange
      exact ho ⟨info, hi, hm, hv, Or.inr ⟨hset, by simpa using hacc⟩⟩

-- =============================================================== runs

theorem run_append (C : ClassEntry Z V) (s : Store V)
    (calls calls' : List (PropertyCall Z)) :
    run C s (calls ++ calls') = run C (run C s calls) calls' :=
  List.foldl_append

/-- Calls that respect the class keep an initialised readonly property. -/
theorem readonly_kept {info : PropertyInfo} (hi : info ∈ C.declared)
    (hro : info.isReadonly = true) {v : V} :
    ∀ (mid : List (PropertyCall Z)) {s : Store V},
      (∀ pre c post, mid = pre ++ c :: post →
        c.Respects C (run C s pre)) →
      s.hash.find info.key = some v →
      (run C s mid).hash.find info.key = some v := by
  intro mid
  induction mid with
  | nil => exact fun _ hv => hv
  | cons c mid ih =>
      intro s hr hv
      have hstep : (c.apply C s).2.hash.find info.key = some v := by
        have h := ((hr [] c mid rfl).1 info hi).1 hro
        rw [← hv]
        exact h (by simp [run, hv])
      refine ih (fun pre c' post hmid => ?_) hstep
      exact hr (c :: pre) c' post (by rw [hmid]; rfl)

/-- In a run the properties of a class are protected, each call by itself
and the readonly ones from their initialisation on, exactly when no call
goes past the magic methods and hooks to a property that it may not
change. -/
theorem property_protection_iff (C : ClassEntry Z V) (s : Store V)
    (calls : List (PropertyCall Z)) :
    ((∀ pre c post, calls = pre ++ c :: post → c.Respects C (run C s pre))
      ∧ ∀ info ∈ C.declared, info.isReadonly = true →
        ∀ pre mid post v, calls = pre ++ (mid ++ post) →
        (run C s pre).hash.find info.key = some v →
        (run C s (pre ++ mid)).hash.find info.key = some v)
      ↔ ∀ pre c post, calls = pre ++ c :: post →
        ¬ c.Offends C (run C s pre) := by
  constructor
  · rintro ⟨hr, -⟩ pre c post hcalls
    exact (respects_iff _ c).mp (hr pre c post hcalls)
  · intro ho
    have hr : ∀ pre c post, calls = pre ++ c :: post →
        c.Respects C (run C s pre) := fun pre c post hcalls =>
      (respects_iff _ c).mpr (ho pre c post hcalls)
    refine ⟨hr, fun info hi hro pre mid post v hcalls hv => ?_⟩
    rw [run_append]
    refine readonly_kept hi hro mid (fun pre' c post' hmid => ?_) hv
    rw [← run_append]
    refine hr (pre ++ pre') c (post' ++ post) ?_
    rw [hcalls, hmid]
    simp

/-- `public readonly int $a` -/
def infoA : PropertyInfo := ⟨[97], 0, false, true, false, true, true, none⟩

/-- `public private(set) int $b` -/
def infoB : PropertyInfo := ⟨[98], 1, false, false, false, true, true, none⟩

/-- A class with these two, seen by every scope and with set access from
the class 0 itself. -/
def classAB : ClassEntry Int Int where
  magicSet := false
  magicUnset := false
  declared := [infoA, infoB]
  getPropertyInfo _ name :=
    if name = [97] then .found infoA
    else if name = [98] then .found infoB
    else .dynamic
  hasSetAccess scope _ := scope == some 0
  verifyPropertyType _ _ value := some value
  saveZval := some

/-- A call from a method of the class, and one from outside. -/
def fromClass : CallFrame := ⟨some 0, none, true, false, false⟩

def fromOutside : CallFrame := ⟨none, none, false, false, false⟩

/-- A second write to the readonly property, and a write to the other one
from outside, both succeed. -/
theorem readonly_and_private_set_overwritten :
    (run classAB .init [.write fromClass [97] 1 false]).hash.find infoA.key
      = some 1
    ∧ (run classAB .init [.write fromClass [97] 1 false,
        .write fromClass [97] 2 false]).hash.find infoA.key = some 2
    ∧ classAB.hasSetAccess fromOutside.scope infoB = false
    ∧ (run classAB .init
        [.write fromOutside [98] 3 false]).hash.find infoB.key
      = some 3 := by
  decide

end PropertyCall

end PmmpThread.Model
