/-
The properties of a ThreadSafe object are cells of their own. All of them
live in one table, a declared one under its mangled name and a dynamic one
under the name that code gives, each through `pmmpthread_store_coerce`; yet
no call on one property is ever seen in another, neither in a private one
of the same name in a parent class nor in one whose name is a number.

The handlers rely on the engine for this: that a scope is shown declared
properties only, and never a dynamic one under the mangled name of a
declared one (`Honest`).
-/
import PmmpThread.Model.PropertyRead
import PmmpThread.Proofs.Property
import PmmpThread.Proofs.Numerals

namespace PmmpThread.Model

open Zend HashTable

/-- Different names are different members. -/
theorem coerceString_inj {a b : List UInt8}
    (h : coerceString a = coerceString b) : a = b := by
  unfold coerceString at h
  cases ha : handleNumericStr a with
  | some n =>
      cases hb : handleNumericStr b with
      | some m =>
          rw [ha, hb] at h
          injection h with h
          exact handleNumericStr_inj ha (h ▸ hb)
      | none =>
          rw [ha, hb] at h
          cases h
  | none =>
      cases hb : handleNumericStr b with
      | some m =>
          rw [ha, hb] at h
          cases h
      | none =>
          rw [ha, hb] at h
          injection h with h

/-- What the engine promises about names. -/
structure ClassEntry.Honest {Z V : Type} (C : ClassEntry Z V) : Prop where
  declared : ∀ {scope member info},
    C.getPropertyInfo scope member = .found info → info.isStatic = false →
    info ∈ C.declared
  names : ∀ {info info'}, info ∈ C.declared → info' ∈ C.declared →
    info.name = info'.name → info = info'
  dynamic : ∀ {scope member}, C.resolve scope member = some (.dynamic member) →
    ∀ info ∈ C.declared, info.name ≠ member

/-- The member of the table that a property lives under. -/
def PropertyRef.key : PropertyRef → Key
  | .declared info => info.key
  | .dynamic member => coerceString member

/-- Code can name the property. -/
def PropertyRef.Reachable {Z V : Type} (C : ClassEntry Z V)
    (r : PropertyRef) : Prop :=
  ∃ scope member, C.resolve scope member = some r

variable {Z V : Type}

theorem ClassEntry.resolve_dynamic {C : ClassEntry Z V} {scope : Option Nat}
    {member m : List UInt8} (h : C.resolve scope member = some (.dynamic m)) :
    m = member := by
  unfold ClassEntry.resolve at h
  split at h
  · cases h
  · injection h with h
    injection h with h
    exact h.symm
  · split at h
    · injection h with h
      injection h with h
      exact h.symm
    · cases h

theorem ClassEntry.resolve_declared {C : ClassEntry Z V} (hC : C.Honest)
    {scope : Option Nat} {member : List UInt8} {info : PropertyInfo}
    (h : C.resolve scope member = some (.declared info)) :
    info ∈ C.declared := by
  unfold ClassEntry.resolve at h
  split at h
  · cases h
  · cases h
  · rename_i info' hf
    split at h
    · cases h
    · rename_i hst
      injection h with h
      injection h with h
      exact hC.declared (h ▸ hf) (h ▸ Bool.eq_false_iff.mpr hst)

/-- No two properties live under one member. -/
theorem PropertyRef.key_inj {C : ClassEntry Z V} (hC : C.Honest)
    {r r' : PropertyRef} (hr : r.Reachable C) (hr' : r'.Reachable C)
    (h : r.key = r'.key) : r = r' := by
  obtain ⟨scope, member, hm⟩ := hr
  obtain ⟨scope', member', hm'⟩ := hr'
  have hname := fun {a b} (h : coerceString a = coerceString b) =>
    coerceString_inj h
  cases r with
  | declared info =>
      have hi := C.resolve_declared hC hm
      cases r' with
      | declared info' =>
          rw [hC.names hi (C.resolve_declared hC hm') (hname h)]
      | dynamic m =>
          rw [C.resolve_dynamic hm'] at h hm'
          exact absurd (hname h) (hC.dynamic hm' info hi)
  | dynamic m =>
      cases r' with
      | declared info =>
          rw [C.resolve_dynamic hm] at h hm
          exact absurd (hname h).symm
            (hC.dynamic hm info (C.resolve_declared hC hm'))
      | dynamic m' => rw [hname h]

/-- The store holds the cells. -/
def HoldsCells (C : ClassEntry Z V) (s : Store V) (cells : Cells V) : Prop :=
  ∀ r : PropertyRef, r.Reachable C → s.hash.find r.key = cells r

theorem holds_init (C : ClassEntry Z V) :
    HoldsCells C (.init : Store V) fun _ => none :=
  fun _ _ => find_init _ _

namespace PropertyCall

variable {C : ClassEntry Z V}

/-- The property that a call is about is one that code can name. -/
theorem named_reachable {c : PropertyCall Z} {r : PropertyRef}
    (h : c.named C = some r) : r.Reachable C := by
  cases c with
  | write f member value compact =>
      simp only [named] at h
      split at h
      · cases h
      · exact ⟨_, _, h⟩
  | unset f member =>
      simp only [named] at h
      split at h
      · cases h
      · exact ⟨_, _, h⟩

/-- A call is about its property in the store as it is in the cells: what it
leaves alone there it leaves alone here, and what it sets is the same. -/
def Agrees (C : ClassEntry Z V) (c : PropertyCall Z) (r : PropertyRef) :
    Prop :=
  (c.cell C r = none → c.member C = none ∨ c.content C = none)
    ∧ ∀ v, c.cell C r = some v →
      c.member C = some r.key ∧ c.content C = some v

theorem agrees_dynamic {c : PropertyCall Z} {m : List UInt8}
    (hm : c.member C = some (coerceString m))
    (hc : c.content C = c.cell C (.dynamic m)) : c.Agrees C (.dynamic m) :=
  ⟨fun h => Or.inr (hc.trans h), fun _ h => ⟨hm, hc.trans h⟩⟩

/-- The property of a call that no magic method takes. -/
theorem named_write {f : CallFrame} {m : List UInt8} {value : Z}
    {compact : Bool} {r : PropertyRef}
    (h : (write f m value compact).named C = some r) :
    (C.magicSet && !f.guarded) = false ∧ C.resolve f.scope m = some r := by
  simp only [named] at h
  split at h
  · cases h
  · next hg => exact ⟨Bool.eq_false_iff.mpr hg, h⟩

theorem named_unset {f : CallFrame} {m : List UInt8} {r : PropertyRef}
    (h : (unset f m : PropertyCall Z).named C = some r) :
    (C.magicUnset && !f.guarded) = false ∧ C.resolve f.scope m = some r := by
  simp only [named] at h
  split at h
  · cases h
  · next hg => exact ⟨Bool.eq_false_iff.mpr hg, h⟩

theorem agrees_write {f : CallFrame} {m : List UInt8} {value : Z}
    {compact : Bool} {r : PropertyRef}
    (h : (write f m value compact).named C = some r) :
    (write f m value compact).Agrees C r := by
  obtain ⟨hg, h⟩ := named_write h
  unfold ClassEntry.resolve at h
  cases hi : C.getPropertyInfo f.scope m with
  | wrong => rw [hi] at h; cases h
  | dynamic =>
      rw [hi] at h
      rw [← Option.some.inj h]
      refine agrees_dynamic ?_ ?_
      · simp only [PropertyCall.member, hg, hi, Bool.false_eq_true, if_false]
      · simp only [content, verified, hi, Option.bind_some, cell]
  | found info =>
      rw [hi] at h
      cases hst : info.isStatic with
      | true =>
          simp only [hst, if_true] at h
          rw [← Option.some.inj h]
          refine agrees_dynamic ?_ ?_
          · simp only [PropertyCall.member, hg, hi, hst, Bool.false_eq_true,
              if_false, if_true]
          · simp only [content, verified, hi, hst, Bool.true_or, if_true,
              Option.bind_some, cell]
      | false =>
          simp only [hst, Bool.false_eq_true, if_false] at h
          rw [← Option.some.inj h]
          have hmem : (write f m value compact).member C
              = if C.setAction f info = .plain then some info.key
                else none := by
            simp only [PropertyCall.member, hg, hi, hst, Bool.false_eq_true,
              if_false]
          have hcon : (write f m value compact).content C
              = ((if info.typed then C.verifyPropertyType info f.strict value
                else some value).bind C.saveZval).map some := by
            simp only [content, verified, hi, hst, Bool.false_or]
            cases info.typed <;> rfl
          by_cases ha : C.setAction f info = .plain
          · rw [if_pos ha] at hmem
            have hcell : (write f m value compact).cell C (.declared info)
                = (write f m value compact).content C := by
              simp only [cell, if_pos ha, hcon]
            exact ⟨fun hn => Or.inr (hcell ▸ hn),
              fun v hv => ⟨hmem, hcell ▸ hv⟩⟩
          · rw [if_neg ha] at hmem
            refine ⟨fun _ => Or.inl hmem, fun v hv => ?_⟩
            simp only [cell, if_neg ha] at hv
            cases hv

theorem agrees_unset {f : CallFrame} {m : List UInt8} {r : PropertyRef}
    (h : (unset f m : PropertyCall Z).named C = some r) :
    (unset f m : PropertyCall Z).Agrees C r := by
  obtain ⟨hg, h⟩ := named_unset h
  unfold ClassEntry.resolve at h
  cases hi : C.getPropertyInfo f.scope m with
  | wrong => rw [hi] at h; cases h
  | dynamic =>
      rw [hi] at h
      rw [← Option.some.inj h]
      refine agrees_dynamic ?_ rfl
      simp only [PropertyCall.member, hg, hi, Bool.false_eq_true, if_false]
  | found info =>
      rw [hi] at h
      cases hst : info.isStatic with
      | true =>
          simp only [hst, if_true] at h
          rw [← Option.some.inj h]
          refine agrees_dynamic ?_ rfl
          simp only [PropertyCall.member, hg, hi, hst, Bool.false_eq_true,
            if_false, if_true]
      | false =>
          simp only [hst, Bool.false_eq_true, if_false] at h
          rw [← Option.some.inj h]
          have hmem : (unset f m : PropertyCall Z).member C
              = if info.hooks.isSome then none else some info.key := by
            simp only [PropertyCall.member, hg, hi, hst, Bool.false_eq_true,
              if_false]
          cases hh : info.hooks.isSome with
          | true =>
              rw [hh] at hmem
              refine ⟨fun _ => Or.inl hmem, fun v hv => ?_⟩
              simp only [cell, hh, if_true] at hv
              cases hv
          | false =>
              rw [hh] at hmem
              refine ⟨fun hn => ?_, fun v hv => ?_⟩
              · simp only [cell, hh, Bool.false_eq_true, if_false] at hn
                cases hn
              · simp only [cell, hh, Bool.false_eq_true, if_false] at hv
                exact ⟨hmem, hv⟩

theorem agrees {c : PropertyCall Z} {r : PropertyRef}
    (h : c.named C = some r) : c.Agrees C r := by
  cases c with
  | write f m value compact => exact agrees_write h
  | unset f m => exact agrees_unset h

/-- A call that names no property addresses no member. -/
theorem member_none {c : PropertyCall Z} (h : c.named C = none) :
    c.member C = none := by
  cases c with
  | write f m value compact =>
      simp only [named, ClassEntry.resolve] at h
      simp only [PropertyCall.member]
      split at h
      · next hg => rw [if_pos hg]
      · next hg =>
        rw [if_neg hg]
        cases hi : C.getPropertyInfo f.scope m with
        | wrong => rfl
        | dynamic => rw [hi] at h; cases h
        | found info =>
            rw [hi] at h
            simp only [] at h
            split at h <;> cases h
  | unset f m =>
      simp only [named, ClassEntry.resolve] at h
      simp only [PropertyCall.member]
      split at h
      · next hg => rw [if_pos hg]
      · next hg =>
        rw [if_neg hg]
        cases hi : C.getPropertyInfo f.scope m with
        | wrong => rfl
        | dynamic => rw [hi] at h; cases h
        | found info =>
            rw [hi] at h
            simp only [] at h
            split at h <;> cases h

/-- A call that leaves the cells alone leaves the store alone. -/
theorem apply_eq_self {s : Store V} {c : PropertyCall Z}
    (h : c.member C = none ∨ c.content C = none) : (c.apply C s).2 = s := by
  rcases ends_apply C s c with ⟨hs, -⟩ | ⟨k, v, hm, hc, -⟩
  · exact hs
  · rcases h with h | h
    · rw [h] at hm
      cases hm
    · rw [h] at hc
      cases hc

theorem find_apply {s : Store V} {c : PropertyCall Z} {k : Key}
    {v : Option V} (hm : c.member C = some k) (hc : c.content C = some v)
    (k' : Key) :
    (c.apply C s).2.hash.find k' = if k' = k then v else s.hash.find k' := by
  rcases ends_apply C s c with ⟨-, hno⟩ | ⟨k₀, v₀, hm', hc', -, hfind⟩
  · rcases hno with hno | hno
    · rw [hno] at hm
      cases hm
    · rw [hno] at hc
      cases hc
  · rw [hm] at hm'
    rw [hc] at hc'
    rw [hfind, ← Option.some.inj hm', ← Option.some.inj hc']

theorem onCells_of_none {c : PropertyCall Z} {cells : Cells V}
    {r : PropertyRef} (hr : c.named C = some r) (h : c.cell C r = none) :
    c.onCells C cells = cells := by
  unfold onCells
  rw [hr]
  simp only [h]

theorem onCells_of_some {c : PropertyCall Z} {cells : Cells V}
    {r : PropertyRef} {v : Option V} (hr : c.named C = some r)
    (h : c.cell C r = some v) :
    c.onCells C cells = Function.update cells r v := by
  unfold onCells
  rw [hr]
  simp only [h]

/-- A call changes the cell of its property and no other. -/
theorem holds_apply (hC : C.Honest) {s : Store V} {cells : Cells V}
    (h : HoldsCells C s cells) (c : PropertyCall Z) :
    HoldsCells C (c.apply C s).2 (c.onCells C cells) := by
  cases hr : c.named C with
  | none =>
      rw [apply_eq_self (Or.inl (member_none hr))]
      unfold onCells
      rw [hr]
      exact h
  | some r =>
      obtain ⟨hnone, hsome⟩ := agrees hr
      cases hcell : c.cell C r with
      | none =>
          rw [apply_eq_self (hnone hcell), onCells_of_none hr hcell]
          exact h
      | some v =>
          obtain ⟨hm, hc⟩ := hsome v hcell
          intro r' hr'
          rw [find_apply hm hc, onCells_of_some hr hcell]
          by_cases hk : r' = r
          · rw [hk, if_pos rfl, Function.update_self]
          · rw [Function.update_of_ne hk, if_neg fun hkey =>
              hk (PropertyRef.key_inj hC hr' (named_reachable hr) hkey)]
            exact h r' hr'

theorem holds_run (hC : C.Honest) (calls : List (PropertyCall Z)) :
    ∀ {s : Store V} {cells : Cells V}, HoldsCells C s cells →
      HoldsCells C (run C s calls) (calls.foldl (onCells C) cells) := by
  induction calls with
  | nil => exact fun h => h
  | cons c calls ih => exact fun h => ih (holds_apply hC h c)

end PropertyCall

namespace ReadableClass

variable {C : ReadableClass Z V}

/-- The local table has no value but the stored one, and for a write access
none but ThreadSafe objects. -/
def Current (C : ReadableClass Z V) (s : Store V) (cached : Cached V)
    (access : Access) : Prop :=
  ∀ k v, cached k = some v → s.hash.find k = some v
    ∧ (access.readOnly = true ∨ C.isObject v = true)

/-- Then it makes no difference. -/
theorem Current.storeRead {s : Store V} {cached : Cached V}
    {access : Access} (h : Current C s cached access) (k : Key) :
    C.storeRead s cached k access = C.sharedRead (s.hash.find k) access := by
  unfold ReadableClass.storeRead
  cases hc : cached k with
  | none => rfl
  | some v =>
      obtain ⟨hfind, hmode⟩ := h k v hc
      rw [hfind, sharedRead, if_neg]
      rw [Option.any_some]
      rcases hmode with hmode | hmode <;> simp [hmode]

theorem readProperty_eq {s : Store V} {cells : Cells V} {cached : Cached V}
    {access : Access} (h : HoldsCells C.toClassEntry s cells)
    (hcached : Current C s cached access) (f : CallFrame)
    (member : List UInt8) :
    C.readProperty f s cached member access
      = C.readCells f cells member access := by
  unfold readProperty readCells readDynamic readDeclared
  simp only [hcached.storeRead]
  split
  · rfl
  · have hr := fun r (hr : C.resolve f.scope member = some r) =>
      h r ⟨f.scope, member, hr⟩
    unfold ClassEntry.resolve at hr ⊢
    cases hi : C.getPropertyInfo f.scope member with
    | wrong => rfl
    | dynamic =>
        rw [hi] at hr
        have hcell := hr _ rfl
        simp only [← hcell, PropertyRef.key]
    | found info =>
        rw [hi] at hr
        cases hst : info.isStatic with
        | true =>
            simp only [hst, if_true] at hr ⊢
            have hcell := hr _ rfl
            simp only [← hcell, PropertyRef.key]
        | false =>
            simp only [hst, Bool.false_eq_true, if_false] at hr ⊢
            have hcell := hr _ rfl
            simp only [← hcell, PropertyRef.key]

theorem hasProperty_eq {s : Store V} {cells : Cells V}
    (h : HoldsCells C.toClassEntry s cells) (f : CallFrame)
    (member : List UInt8) (mode : HasSetExists) :
    C.hasProperty f s member mode = C.hasCells f cells member mode := by
  unfold hasProperty hasCells
  split
  · rfl
  · have hr := fun r (hr : C.resolve f.scope member = some r) =>
      h r ⟨f.scope, member, hr⟩
    unfold ClassEntry.resolve at hr ⊢
    cases hi : C.getPropertyInfo f.scope member with
    | wrong => rfl
    | dynamic =>
        rw [hi] at hr
        have hcell := hr _ rfl
        simp only [← hcell, PropertyRef.key]
    | found info =>
        rw [hi] at hr
        cases hst : info.isStatic with
        | true =>
            simp only [hst, if_true] at hr ⊢
            have hcell := hr _ rfl
            simp only [← hcell, PropertyRef.key]
        | false =>
            simp only [hst, Bool.false_eq_true, if_false] at hr ⊢
            have hcell := hr _ rfl
            simp only [← hcell, PropertyRef.key]

/-- After any writes and unsets from any scopes, tests answer as if each
property had a cell of its own, and so do reads where the local table is
current. -/
theorem properties_are_cells (C : ReadableClass Z V)
    (hC : C.toClassEntry.Honest) (calls : List (PropertyCall Z))
    (f : CallFrame) (cached : Cached V) (member : List UInt8)
    (access : Access) (mode : HasSetExists) :
    (Current C (PropertyCall.run C.toClassEntry .init calls) cached access →
        C.readProperty f (PropertyCall.run C.toClassEntry .init calls) cached
            member access
          = C.readCells f (calls.foldl (PropertyCall.onCells C.toClassEntry)
              fun _ => none) member access)
      ∧ C.hasProperty f (PropertyCall.run C.toClassEntry .init calls) member
          mode
        = C.hasCells f (calls.foldl (PropertyCall.onCells C.toClassEntry)
            fun _ => none) member mode := by
  have h := PropertyCall.holds_run hC calls (holds_init C.toClassEntry)
  exact ⟨fun hcached => readProperty_eq h hcached f member,
    hasProperty_eq h f member mode⟩

/-- `private $x` of class A, and of a class B that extends it. -/
def infoAx : PropertyInfo :=
  ⟨[0, 65, 0, 120], 0, false, false, false, false, false, none⟩

def infoBx : PropertyInfo :=
  ⟨[0, 66, 0, 120], 1, false, false, false, false, false, none⟩

/-- Class B. Its scope is 1, that of A is 0; integers from 100 on are
objects. -/
def classB : ReadableClass Int Int where
  magicSet := false
  magicUnset := false
  declared := [infoAx, infoBx]
  getPropertyInfo scope name :=
    if name.head? = some 0 then .wrong
    else if name = [120] then
      if scope = some 0 then .found infoAx
      else if scope = some 1 then .found infoBx
      else .wrong
    else .dynamic
  hasSetAccess _ _ := true
  verifyPropertyType _ _ value := some value
  saveZval := some
  magicGet := false
  magicIsset := false
  getHook _ := false
  isObject v := decide (100 ≤ v)
  isset v mode := mode == .exists || v != 0

theorem classB_honest : classB.Honest where
  declared := by
    intro scope member info h _
    simp only [classB] at h
    split at h
    · cases h
    · split at h
      · split at h
        · injection h with h
          simp [← h, classB]
        · split at h
          · injection h with h
            simp [← h, classB]
          · cases h
      · cases h
  names := by
    intro info info' hi hi' h
    simp only [classB, List.mem_cons, List.not_mem_nil, or_false] at hi hi'
    rcases hi with rfl | rfl <;> rcases hi' with rfl | rfl
    · rfl
    · cases h
    · cases h
    · rfl
  dynamic := by
    intro scope member h info hi heq
    have hhead : member.head? = some 0 := by
      simp only [classB, List.mem_cons, List.not_mem_nil, or_false] at hi
      rcases hi with rfl | rfl <;> rw [← heq] <;> rfl
    simp only [ClassEntry.resolve, classB, if_pos hhead] at h
    cases h

/-- The methods of A and of B. -/
def inA : CallFrame := ⟨some 0, none, true, false, false⟩

def inB : CallFrame := ⟨some 1, none, true, false, false⟩

/-- The local table has the `x` of A. -/
def cachedAx : Cached Int := fun k => if k = infoAx.key then some 2 else none

/-- B writes its own `x`, and A its own: each reads what it wrote. -/
theorem properties_are_cells_classB :
    classB.readProperty inA (PropertyCall.run classB.toClassEntry .init
        [.write inB [120] 1 false, .write inA [120] 2 false]) cachedAx
        [120] .is = .value 2
    ∧ classB.readProperty inB (PropertyCall.run classB.toClassEntry .init
        [.write inB [120] 1 false, .write inA [120] 2 false]) cachedAx
        [120] .is = .value 1 := by
  have hcurrent : Current classB (PropertyCall.run classB.toClassEntry .init
      [.write inB [120] 1 false, .write inA [120] 2 false]) cachedAx .is := by
    intro k v hv
    unfold cachedAx at hv
    split at hv
    case isTrue hk =>
      rw [hk, ← Option.some.inj hv]
      exact ⟨by decide, Or.inl rfl⟩
    case isFalse => cases hv
  exact ⟨((properties_are_cells classB classB_honest _ inA cachedAx [120] .is
      .isset).1 hcurrent).trans (by decide),
    ((properties_are_cells classB classB_honest _ inB cachedAx [120] .is
      .isset).1 hcurrent).trans (by decide)⟩

end ReadableClass

end PmmpThread.Model
