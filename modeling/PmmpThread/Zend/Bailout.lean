/-
Code that takes and releases mutexes and can be left in the middle.

# Shape

The code of a call is the list of what it does: it locks, it unlocks, it
throws, or it raises a fatal error. A thrown exception only sets a flag,
the C code that threw it goes on to its end. A fatal error is a `longjmp`
to the nearest `zend_try`: nothing of the code after it is run.

# Nesting

Code is nested if its locks and unlocks match like brackets. Nested code
that raises no fatal error leaves every mutex as it was (`run_append`).
If it does raise one, the mutexes around that point stay locked; and if
no such point is outside all brackets (`Sealed`), the mutexes are as
before exactly if no fatal error is raised (`held_eq_iff`).
-/
import Mathlib.Logic.Function.Basic
import Mathlib.Order.Basic
import Mathlib.Order.Lattice
import Mathlib.Algebra.Order.Group.Nat

namespace PmmpThread.Zend.Bailout

variable {L : Type}

/-- What code does with locks and with the two ways of failing. -/
inductive Instr (L : Type) where
  | lock (l : L)
  | unlock (l : L)
  /-- `zend_throw_error`, `zend_throw_exception_ex`. -/
  | throw
  /-- `zend_error_noreturn`, `zend_bailout`. -/
  | fatal
  deriving DecidableEq

/-- How a call ends. -/
inductive Exit where
  | returned
  | threw
  | bailed
  deriving DecidableEq

/-- How often the calling thread holds each mutex, and whether there is an
exception. -/
structure Frame (L : Type) where
  held : L → Nat
  exception : Bool

/-- Code with a mutex held. -/
def guarded (l : L) (code : List (Instr L)) : List (Instr L) :=
  .lock l :: (code ++ [.unlock l])

-- ============================================================== nesting

/-- Each lock is taken and given back around a body. -/
inductive Nested : List (Instr L) → Prop
  | nil : Nested []
  | throw {code : List (Instr L)} (h : Nested code) :
      Nested (.throw :: code)
  | fatal {code : List (Instr L)} (h : Nested code) :
      Nested (.fatal :: code)
  | guarded {inside code : List (Instr L)} (l : L) (hi : Nested inside)
      (h : Nested code) : Nested (guarded l inside ++ code)

/-- Nested code whose fatal errors are all raised with a mutex held. -/
inductive Sealed : List (Instr L) → Prop
  | nil : Sealed []
  | throw {code : List (Instr L)} (h : Sealed code) :
      Sealed (.throw :: code)
  | guarded {inside code : List (Instr L)} (l : L) (hi : Nested inside)
      (h : Sealed code) : Sealed (guarded l inside ++ code)

variable {xs ys : List (Instr L)} {l : L}

/-- One after the other. -/
theorem Nested.append (hx : Nested xs) (hy : Nested ys) :
    Nested (xs ++ ys) := by
  induction hx with
  | nil => exact hy
  | throw _ ih => exact .throw ih
  | fatal _ ih => exact .fatal ih
  | guarded l hi _ _ ih =>
      rw [List.append_assoc]
      exact .guarded l hi ih

theorem Sealed.append (hx : Sealed xs) (hy : Sealed ys) :
    Sealed (xs ++ ys) := by
  induction hx with
  | nil => exact hy
  | throw _ ih => exact .throw ih
  | guarded l hi _ ih =>
      rw [List.append_assoc]
      exact .guarded l hi ih

/-- A body with a lock around it. -/
theorem Nested.guard (l : L) (h : Nested xs) :
    Nested (Bailout.guarded l xs) := by
  rw [← List.append_nil (Bailout.guarded l xs)]
  exact .guarded l h .nil

theorem Sealed.guard (l : L) (h : Nested xs) :
    Sealed (Bailout.guarded l xs) := by
  rw [← List.append_nil (Bailout.guarded l xs)]
  exact .guarded l h .nil

/-- What restores the locks takes them in pairs. -/
theorem Sealed.nested (h : Sealed xs) : Nested xs := by
  induction h with
  | nil => exact .nil
  | throw _ ih => exact .throw ih
  | guarded l hi _ ih => exact .guarded l hi ih

theorem Nested.flatMap {A : Type} {c : A → List (Instr L)} {as : List A}
    (h : ∀ a ∈ as, Nested (c a)) : Nested (as.flatMap c) := by
  induction as with
  | nil => exact .nil
  | cons a as ih =>
      rw [List.flatMap_cons]
      exact (h a List.mem_cons_self).append
        (ih fun b hb => h b (List.mem_cons_of_mem a hb))

@[simp] theorem fatal_mem_guarded :
    Instr.fatal ∈ guarded l xs ↔ Instr.fatal ∈ xs := by
  simp [guarded]

theorem fatal_notMem_append :
    Instr.fatal ∉ xs ++ ys ↔ Instr.fatal ∉ xs ∧ Instr.fatal ∉ ys := by
  simp

-- ================================================================= runs

variable [DecidableEq L]

/-- The lock is taken once more, -/
def Frame.lock (f : Frame L) (l : L) : Frame L :=
  { f with held := Function.update f.held l (f.held l + 1) }

/-- or once less. -/
def Frame.unlock (f : Frame L) (l : L) : Frame L :=
  { f with held := Function.update f.held l (f.held l - 1) }

def Frame.throw (f : Frame L) : Frame L := { f with exception := true }

/-- The mutexes at the end of the call, and how it ends. -/
def run : List (Instr L) → Frame L → Exit × (L → Nat)
  | [], f => (if f.exception then .threw else .returned, f.held)
  | .lock l :: code, f => run code (f.lock l)
  | .unlock l :: code, f => run code (f.unlock l)
  | .throw :: code, f => run code f.throw
  | .fatal :: _, f => (.bailed, f.held)

variable {f : Frame L}

theorem Frame.held_unlock {f₁ : Frame L}
    (h : f₁.held = (f.lock l).held) : (f₁.unlock l).held = f.held := by
  show Function.update f₁.held l (f₁.held l - 1) = f.held
  rw [h]
  simp [Frame.lock]

theorem Frame.le_lock (f : Frame L) (l : L) : f.held ≤ (f.lock l).held := by
  intro m
  show f.held m ≤ Function.update f.held l (f.held l + 1) m
  rw [Function.update_apply]
  split
  case isTrue hm =>
    rw [hm]
    omega
  case isFalse => exact le_refl _

/-- A guarded body runs with the lock and gives it back. -/
theorem run_guarded (code : List (Instr L)) :
    run (guarded l xs ++ code) f
      = run (xs ++ .unlock l :: code) (f.lock l) := by
  simp [guarded, run]

/-- Nested code that raises no fatal error gives back what it took. -/
theorem run_append (hx : Nested xs) (hfatal : Instr.fatal ∉ xs)
    (f : Frame L) (ys : List (Instr L)) :
    ∃ f', f'.held = f.held ∧ run (xs ++ ys) f = run ys f' := by
  induction hx generalizing f ys with
  | nil => exact ⟨f, rfl, rfl⟩
  | throw _ ih =>
      obtain ⟨f', hf', hrun⟩ := ih (by simpa using hfatal) f.throw ys
      exact ⟨f', hf', hrun⟩
  | fatal _ _ => exact absurd List.mem_cons_self hfatal
  | @guarded inside code l _ _ ihi ih =>
      rw [fatal_notMem_append, fatal_mem_guarded] at hfatal
      obtain ⟨f₁, hf₁, hrun₁⟩ := ihi hfatal.1 (f.lock l)
        (.unlock l :: (code ++ ys))
      obtain ⟨f₂, hf₂, hrun₂⟩ := ih hfatal.2 (f₁.unlock l) ys
      refine ⟨f₂, hf₂.trans (Frame.held_unlock hf₁), ?_⟩
      rw [List.append_assoc, run_guarded, hrun₁]
      exact hrun₂

/-- The same of code with a mutex held around it. -/
theorem run_guarded_append (hx : Nested xs) (hfatal : Instr.fatal ∉ xs)
    (l : L) (f : Frame L) (ys : List (Instr L)) :
    ∃ f', f'.held = f.held ∧ run (guarded l xs ++ ys) f = run ys f' :=
  run_append (hx.guard l) (by simpa using hfatal) f ys

/-- Nested code that raises a fatal error ends there, and gives back
nothing that was held when it began. -/
theorem run_fatal (hx : Nested xs) (hfatal : Instr.fatal ∈ xs)
    (f : Frame L) (ys : List (Instr L)) :
    (run (xs ++ ys) f).1 = .bailed ∧ f.held ≤ (run (xs ++ ys) f).2 := by
  induction hx generalizing f ys with
  | nil => cases hfatal
  | throw _ ih => exact ih (by simpa using hfatal) f.throw ys
  | fatal _ _ => exact ⟨rfl, le_refl f.held⟩
  | @guarded inside code l hi _ ihi ih =>
      rw [List.append_assoc]
      by_cases hin : Instr.fatal ∈ inside
      · rw [run_guarded]
        obtain ⟨hexit, hheld⟩ := ihi hin (f.lock l)
          (.unlock l :: (code ++ ys))
        exact ⟨hexit, (f.le_lock l).trans hheld⟩
      · have hcode : Instr.fatal ∈ code := by
          simpa [hin] using hfatal
        obtain ⟨f₁, hf₁, hrun₁⟩ := run_guarded_append hi hin l f (code ++ ys)
        rw [hrun₁, ← hf₁]
        exact ih hcode f₁ ys

/-- A fatal error of sealed code leaves a mutex locked. -/
theorem held_ne_of_fatal (hx : Sealed xs) (hfatal : Instr.fatal ∈ xs)
    (f : Frame L) (ys : List (Instr L)) : (run (xs ++ ys) f).2 ≠ f.held := by
  induction hx generalizing f ys with
  | nil => cases hfatal
  | throw _ ih => exact ih (by simpa using hfatal) f.throw ys
  | @guarded inside code l hi _ ih =>
      rw [List.append_assoc]
      by_cases hin : Instr.fatal ∈ inside
      · rw [run_guarded]
        have hheld := (run_fatal hi hin (f.lock l)
          (.unlock l :: (code ++ ys))).2 l
        have hlock : (f.lock l).held l = f.held l + 1 :=
          Function.update_self _ _ _
        intro heq
        rw [heq, hlock] at hheld
        exact Nat.not_succ_le_self _ hheld
      · have hcode : Instr.fatal ∈ code := by
          simpa [hin] using hfatal
        obtain ⟨f₁, hf₁, hrun₁⟩ := run_guarded_append hi hin l f (code ++ ys)
        rw [hrun₁, ← hf₁]
        exact ih hcode f₁ ys

/-- Sealed code leaves the mutexes as they were exactly if it raises no
fatal error. -/
theorem held_eq_iff (hx : Sealed xs) (f : Frame L) :
    (run xs f).2 = f.held ↔ Instr.fatal ∉ xs := by
  rw [← List.append_nil xs]
  constructor
  · intro heq hfatal
    rw [List.append_nil] at hfatal
    exact held_ne_of_fatal hx hfatal f [] heq
  · intro hfatal
    rw [List.append_nil] at hfatal
    obtain ⟨f', hf', hrun⟩ := run_append hx.nested hfatal f []
    rw [hrun]
    exact hf'

end PmmpThread.Zend.Bailout
