/-
When a call leaves the locks as it found them.

Whatever a call finds, a call that returns or throws gives back every
monitor and the globals lock. A call that a fatal error ends gives back
nothing: each such error is raised with a lock held, so the locks are as
before exactly if there is none. The errors of src/ are those of a copy,
and which copies raise one can be told from what is copied
(`Work.sound`).
-/
import PmmpThread.Model.Calls

namespace PmmpThread.Model

open Zend.Bailout

namespace Copy

-- =============================================================== nesting

/-- `pmmpthread_globals_object_valid` locks and unlocks. -/
theorem globalsLookup_nested : Nested globalsLookup := Nested.nil.guard _

theorem fatal_notMem_globalsLookup : Instr.fatal ∉ globalsLookup := by
  decide

/-- A fatal error, or none. -/
theorem nested_error {L : Type} (b : Bool) :
    Nested (if b then [Instr.fatal] else ([] : List (Instr L))) := by
  cases b with
  | true => exact .fatal .nil
  | false => exact .nil

/-- An exception takes no lock. -/
theorem nested_throw {L : Type} (b : Bool) :
    Nested (if b then ([] : List (Instr L)) else [Instr.throw]) := by
  cases b with
  | true => exact .nil
  | false => exact .throw .nil

mutual
/-- Saving and copying values take their locks in pairs, at every depth. -/
theorem Zval.nested : (v : Zval) → Nested v.code
  | .scalar | .other => .nil
  | .reference referent => by
      rw [Zval.code]
      exact referent.nested
  | .array elements | .constantAst elements | .closure elements _ => by
      rw [Zval.code]
      exact elements.nested
  | .object o => by
      rw [Zval.code]
      exact o.nested
  | .enumCase ce present => by
      rw [Zval.code]
      exact ce.nested.append (nested_throw present)

/-- Connecting looks the object up under the globals lock, and may copy its
class. -/
theorem Found.nested : (o : Found) → Nested o.code
  | .gone | .here => globalsLookup_nested.guard _
  | .fresh ce limit => by
      rw [Found.code]
      refine (globalsLookup_nested.append (ce.nested.append
        ((nested_error limit).append ?_))).guard _
      exact globalsLookup_nested.append globalsLookup_nested

/-- Preparing a class takes no lock but those of what it copies. -/
theorem Entry.nested : (ce : Entry) → Nested ce.code
  | .known => .nil
  | .copied work => by
      rw [Entry.code]
      exact work.nested

/-- A list of copies, one after the other. -/
theorem Work.nested : (w : Work) → Nested w.code
  | .done => .nil
  | .value required v next => by
      rw [Work.code]
      exact v.nested.append ((nested_error _).append next.nested)
  | .connect o next => by
      rw [Work.code]
      exact o.nested.append next.nested
  | .entry ce next => by
      rw [Work.code]
      exact ce.nested.append next.nested
  | .throws next => by
      rw [Work.code]
      exact .throw next.nested
end

/-- A connect raises a fatal error only with the globals lock held. -/
theorem Found.sealed (o : Found) : Sealed o.code := by
  cases o with
  | gone => exact Sealed.guard _ globalsLookup_nested
  | here => exact Sealed.guard _ globalsLookup_nested
  | fresh ce limit =>
      rw [Found.code]
      refine Sealed.guard _ (globalsLookup_nested.append (ce.nested.append
        ((nested_error limit).append ?_)))
      exact globalsLookup_nested.append globalsLookup_nested

-- ========================================================== fatal errors

/-- A fatal error that happens on a condition. -/
theorem fatal_notMem_error {L : Type} {b : Bool} :
    Instr.fatal ∉ (if b then [Instr.fatal] else ([] : List (Instr L)))
      ↔ b = false := by
  cases b <;> simp

mutual
/-- The copy raises no fatal error exactly if everything required in it is
copied. -/
theorem Zval.fatal_notMem : (v : Zval) →
    (Instr.fatal ∉ v.code ↔ v.sound = true)
  | .scalar | .other => by simp [Zval.code, Zval.sound]
  | .reference referent => by
      rw [Zval.code, Zval.sound]
      exact referent.fatal_notMem
  | .array elements | .constantAst elements | .closure elements _ => by
      rw [Zval.code, Zval.sound]
      exact elements.fatal_notMem
  | .object o => by
      rw [Zval.code, Zval.sound]
      exact o.fatal_notMem
  | .enumCase ce present => by
      rw [Zval.code, Zval.sound, fatal_notMem_append, ce.fatal_notMem]
      cases present <;> simp

/-- No fatal error exactly if the class that is prepared has none. -/
theorem Found.fatal_notMem : (o : Found) →
    (Instr.fatal ∉ o.code ↔ o.sound = true)
  | .gone | .here => by
      simp [Found.code, Found.sound, fatal_notMem_globalsLookup]
  | .fresh ce limit => by
      rw [Found.code, Found.sound, fatal_mem_guarded]
      simp only [fatal_notMem_append, ce.fatal_notMem, fatal_notMem_error,
        fatal_notMem_globalsLookup, Bool.and_eq_true, Bool.not_eq_true',
        not_false_eq_true, and_true, true_and]

/-- The work of a class is free of fatal errors exactly if it is sound. -/
theorem Entry.fatal_notMem : (ce : Entry) →
    (Instr.fatal ∉ ce.code ↔ ce.sound = true)
  | .known => by simp [Entry.code, Entry.sound]
  | .copied work => by
      rw [Entry.code, Entry.sound]
      exact work.fatal_notMem

/-- `sound` says for each piece of work that none of its fatal errors
happens. -/
theorem Work.fatal_notMem : (w : Work) →
    (Instr.fatal ∉ w.code ↔ w.sound = true)
  | .done => by simp [Work.code, Work.sound]
  | .value required v next => by
      rw [Work.code, Work.sound]
      rw [fatal_notMem_append, fatal_notMem_append, v.fatal_notMem,
        next.fatal_notMem, fatal_notMem_error, Bool.and_eq_true,
        Bool.and_eq_true, and_assoc]
      cases required <;> simp
  | .connect o next => by
      rw [Work.code, Work.sound, fatal_notMem_append, o.fatal_notMem,
        next.fatal_notMem, Bool.and_eq_true]
  | .entry ce next => by
      rw [Work.code, Work.sound, fatal_notMem_append, ce.fatal_notMem,
        next.fatal_notMem, Bool.and_eq_true]
  | .throws next => by
      rw [Work.code, Work.sound]
      simp [next.fatal_notMem]
end

-- =============================================== what cannot be copied

theorem Work.sound_append (a b : Work) :
    (a ++ b).sound = (a.sound && b.sound) := by
  show (a.append b).sound = _
  fun_induction Work.append a b with
  | case1 => rfl
  | case2 required v next w ih =>
      simp [Work.sound, ih, Bool.and_assoc]
  | case3 o next w ih => simp [Work.sound, ih, Bool.and_assoc]
  | case4 ce next w ih => simp [Work.sound, ih, Bool.and_assoc]
  | case5 next w ih => simp [Work.sound, ih]

end Copy

namespace Calls

open Copy

-- ================================================= what calls are made of

/-- A body that runs with the monitor. -/
theorem monitored_sealed (s : TsAddr) {code : List (Instr Lock)}
    (h : Nested code) : Sealed (monitored s code) := Sealed.guard _ h

theorem fatal_notMem_monitored {s : TsAddr} {code : List (Instr Lock)} :
    Instr.fatal ∉ monitored s code ↔ Instr.fatal ∉ code := by
  unfold monitored
  rw [fatal_mem_guarded]

/-- An error that the engine raises on the way. -/
theorem engineError_nested (engine : Bool) : Nested (engineError engine) :=
  nested_error engine

theorem fatal_notMem_engineError {engine : Bool} :
    Instr.fatal ∉ engineError engine ↔ engine = false :=
  fatal_notMem_error

/-- The checks of a sync look objects up, each with the globals lock. -/
theorem syncLocalProperties_nested (checks : Nat) :
    Nested (syncLocalProperties checks) :=
  Nested.flatMap fun _ _ => globalsLookup_nested

theorem fatal_notMem_syncLocalProperties (checks : Nat) :
    Instr.fatal ∉ syncLocalProperties checks := by
  intro h
  obtain ⟨_, -, h⟩ := List.mem_flatMap.mp h
  exact fatal_notMem_globalsLookup h

/-- A storage is restored with the locks of what it names. -/
theorem restoreZval_nested (v : Stored) : Nested (restoreZval v) := by
  cases v with
  | plain => exact .nil
  | object o =>
      cases o with
      | gone => exact Found.gone.nested.append (.throw .nil)
      | here => exact Found.here.nested
      | fresh ce limit => exact (Found.fresh ce limit).nested
  | closure c => exact (copyClosure false c).1.nested
  | enum present => exact nested_throw present
  | engine => exact .fatal .nil

/-- No fatal error exactly if what is restored has none. -/
theorem fatal_notMem_restoreZval (v : Stored) :
    Instr.fatal ∉ restoreZval v ↔ v.sound = true := by
  cases v with
  | plain => simp [restoreZval, Stored.sound]
  | object o =>
      cases o with
      | gone =>
          have h := Found.gone.fatal_notMem
          simp only [restoreZval, Stored.sound, fatal_notMem_append, h]
          simp
      | here => exact Found.here.fatal_notMem
      | fresh ce limit => exact (Found.fresh ce limit).fatal_notMem
  | closure c => exact (copyClosure false c).1.fatal_notMem
  | enum present => cases present <;> simp [restoreZval, Stored.sound]
  | engine => simp [restoreZval, Stored.sound]

/-- All entries, one after the other. -/
theorem restoreAll_nested (vs : List Stored) :
    Nested (vs.flatMap restoreZval) :=
  Nested.flatMap fun v _ => restoreZval_nested v

/-- Each of the entries counts. -/
theorem fatal_notMem_restoreAll (vs : List Stored) :
    Instr.fatal ∉ vs.flatMap restoreZval ↔ vs.all Stored.sound = true := by
  induction vs with
  | nil => simp
  | cons v vs ih =>
      rw [List.flatMap_cons, fatal_notMem_append, ih,
        fatal_notMem_restoreZval, List.all_cons, Bool.and_eq_true]

/-- Saving a value leaves every lock as it was, also where it throws. -/
theorem saveZval_sealed (v : Saved) : Sealed (saveZval v) := by
  cases v with
  | stored => exact .nil
  | socket => exact Sealed.guard _ .nil
  | refused => exact .nil
  | threw => exact .throw .nil

/-- Saving has no fatal error. -/
theorem fatal_notMem_saveZval (v : Saved) : Instr.fatal ∉ saveZval v := by
  cases v <;> decide

/-- The part of a write that holds the monitor. -/
theorem writeSection_nested (checks : Nat) (engine : Bool) :
    Nested (engineError engine ++ syncLocalProperties checks) :=
  (engineError_nested engine).append (syncLocalProperties_nested checks)

/-- In the part of a write under the monitor only the engine can fail for
good. -/
theorem fatal_notMem_writeSection {checks : Nat} {engine : Bool} :
    Instr.fatal ∉ engineError engine ++ syncLocalProperties checks
      ↔ engine = false := by
  rw [fatal_notMem_append, fatal_notMem_engineError]
  exact and_iff_left (fatal_notMem_syncLocalProperties checks)

end Calls

open Calls
open Copy (fatal_notMem_globalsLookup)
open Pthread (LockOp)

-- ================================================================ writes

mutual
/-- A write, and an array that is converted with a store of its own. -/
theorem Written.sealed (s : TsAddr) (checks : Nat) (engine : Bool) :
    (w : Written) → Sealed (w.code s checks engine)
  | .value v => by
      rw [Written.code]
      refine (saveZval_sealed v).append ?_
      split
      · exact .nil
      · exact monitored_sealed s (writeSection_nested checks engine)
  | .array vol elements => by
      rw [Written.code]
      refine Sealed.append (Sealed.guard _ .nil) (Sealed.append ?_ ?_)
      · exact monitored_sealed vol (elements.sealed vol).nested
      · exact monitored_sealed s (writeSection_nested checks engine)

/-- The elements of such an array. -/
theorem Elements.sealed (s : TsAddr) :
    (es : Elements) → Sealed (es.code s)
  | .done => .nil
  | .skip next => by
      rw [Elements.code]
      exact next.sealed s
  | .write checks engine w next => by
      rw [Elements.code]
      refine (w.sealed s checks engine).append (Sealed.append ?_ ?_)
      · split
        · exact .throw .nil
        · exact .nil
      · split
        · exact .nil
        · exact next.sealed s
end

mutual
/-- A write is free of fatal errors exactly if its value is. -/
theorem Written.fatal_notMem (s : TsAddr) (checks : Nat) (engine : Bool) :
    (w : Written) →
    (Instr.fatal ∉ w.code s checks engine ↔ w.sound engine = true)
  | .value v => by
      rw [Written.code, Written.sound, fatal_notMem_append]
      cases hf : Written.fails (.value v) with
      | true => simp [fatal_notMem_saveZval]
      | false =>
          simp [fatal_notMem_saveZval, fatal_notMem_monitored,
            -List.mem_append, fatal_notMem_writeSection]
  | .array vol elements => by
      rw [Written.code, Written.sound]
      rw [fatal_notMem_append, fatal_notMem_append, fatal_notMem_monitored,
        fatal_notMem_monitored, fatal_notMem_writeSection,
        elements.fatal_notMem vol, Bool.and_eq_true, Bool.not_eq_true']
      exact and_iff_right fatal_notMem_globalsLookup

/-- So are the elements. -/
theorem Elements.fatal_notMem (s : TsAddr) :
    (es : Elements) → (Instr.fatal ∉ es.code s ↔ es.sound = true)
  | .done => by simp [Elements.code, Elements.sound]
  | .skip next => by
      rw [Elements.code, Elements.sound]
      exact next.fatal_notMem s
  | .write checks engine w next => by
      rw [Elements.code, Elements.sound]
      simp only [fatal_notMem_append, w.fatal_notMem s checks engine,
        Bool.and_eq_true]
      have hnext := next.fatal_notMem s
      cases w.fails <;> cases w.throws <;> simp [hnext]
end

-- ============================================================ full syncs

/-- A full sync holds the monitors on the way down, one in the other. -/
theorem SyncTree.nested (t : SyncTree Nat Stored) :
    Nested (t.code monitored syncLocalProperties restoreZval) := by
  induction t with
  | done => exact .nil
  | object s checks inside next ihi ihn =>
      refine (Nested.guard _ ?_).append ihn
      exact (syncLocalProperties_nested checks).append ihi
  | restore v next ih => exact (restoreZval_nested v).append ih
  | collectable worker tasks next iht ihn =>
      exact (Nested.guard _ iht).append ihn
  | task s inside next ihi ihn => exact (Nested.guard _ ihi).append ihn

/-- No object of the tree has a fatal error. -/
theorem SyncTree.fatal_notMem (t : SyncTree Nat Stored) :
    Instr.fatal ∉ t.code monitored syncLocalProperties restoreZval
      ↔ t.sound = true := by
  induction t with
  | done => simp [SyncTree.code, SyncTree.sound]
  | object s checks inside next ihi ihn =>
      rw [SyncTree.code, SyncTree.sound, fatal_notMem_append,
        fatal_notMem_monitored, fatal_notMem_append, ihi, ihn,
        Bool.and_eq_true]
      exact and_congr_left' (and_iff_right
        (fatal_notMem_syncLocalProperties checks))
  | restore v next ih =>
      rw [SyncTree.code, SyncTree.sound, fatal_notMem_append, ih,
        fatal_notMem_restoreZval, Bool.and_eq_true]
  | collectable worker tasks next iht ihn =>
      rw [SyncTree.code, SyncTree.sound, fatal_notMem_append,
        fatal_notMem_monitored, iht, ihn, Bool.and_eq_true]
  | task s inside next ihi ihn =>
      rw [SyncTree.code, SyncTree.sound, fatal_notMem_append,
        fatal_notMem_monitored, ihi, ihn, Bool.and_eq_true]

-- ================================================================= calls

/-- Every call restores the locks unless it bails out. -/
theorem Call.sealed (c : Call) : Sealed c.code := by
  cases c with
  | connect o => exact o.sealed
  | read s checks found =>
      refine monitored_sealed s ((syncLocalProperties_nested checks).append ?_)
      cases found with
      | cached => exact .nil
      | indirect => exact .throw .nil
      | missing => exact .nil
      | stored v => exact restoreZval_nested v
  | write s checks engine w => exact w.sealed s checks engine
  | shift s v => exact monitored_sealed s (restoreAll_nested v.toList)
  | pop s v => exact monitored_sealed s (restoreAll_nested v.toList)
  | chunk s vs => exact monitored_sealed s (restoreAll_nested vs)
  | tohash s checks vs =>
      exact monitored_sealed s
        ((syncLocalProperties_nested checks).append (restoreAll_nested vs))
  | merge destination source engine =>
      exact monitored_sealed destination
        (monitored_sealed source (engineError_nested engine)).nested
  | mergeValues destination elements =>
      exact monitored_sealed destination (elements.sealed destination).nested
  | fullSync s checks inside =>
      refine Sealed.append (monitored_sealed s ?_) .nil
      exact (syncLocalProperties_nested checks).append inside.nested

/-- When a call bails out is what `Call.sound` says. -/
theorem Call.fatal_notMem (c : Call) :
    Instr.fatal ∉ c.code ↔ c.sound = true := by
  cases c with
  | connect o => exact o.fatal_notMem
  | read s checks found =>
      rw [Call.code, Call.sound]
      unfold storeRead
      rw [fatal_notMem_monitored, fatal_notMem_append,
        and_iff_right (fatal_notMem_syncLocalProperties checks)]
      cases found with
      | cached => simp [ReadHit.sound]
      | indirect => simp [ReadHit.sound]
      | missing => simp [ReadHit.sound]
      | stored v => exact fatal_notMem_restoreZval v
  | write s checks engine w => exact w.fatal_notMem s checks engine
  | shift s v =>
      rw [Call.code, Call.sound, fatal_notMem_monitored,
        fatal_notMem_restoreAll]
  | pop s v =>
      rw [Call.code, Call.sound, fatal_notMem_monitored,
        fatal_notMem_restoreAll]
  | chunk s vs =>
      rw [Call.code, Call.sound, fatal_notMem_monitored,
        fatal_notMem_restoreAll]
  | tohash s checks vs =>
      rw [Call.code, Call.sound, fatal_notMem_monitored, fatal_notMem_append,
        and_iff_right (fatal_notMem_syncLocalProperties checks),
        fatal_notMem_restoreAll]
  | merge destination source engine =>
      rw [Call.code, Call.sound, fatal_notMem_monitored,
        fatal_notMem_monitored, fatal_notMem_engineError, Bool.not_eq_true']
  | mergeValues destination elements =>
      rw [Call.code, Call.sound, fatal_notMem_monitored]
      exact elements.fatal_notMem destination
  | fullSync s checks inside =>
      rw [Call.code, SyncTree.fatal_notMem, SyncTree.sound, Call.sound]
      simp [SyncTree.sound]

/-- A call that returns or throws leaves every lock as it found it. -/
theorem locks_balanced_of_not_bailed (c : Call) (held : Lock → Nat)
    (h : (c.ends held).1 ≠ .bailed) : (c.ends held).2 = held := by
  refine (held_eq_iff c.sealed ⟨held, false⟩).mpr fun hfatal => ?_
  have hbailed := (run_fatal c.sealed.nested hfatal ⟨held, false⟩ []).1
  rw [List.append_nil] at hbailed
  exact h hbailed

end PmmpThread.Model
