/-
Which global constants a new thread gets.

`pmmpthread_prepare_constants` goes through the creator's constants in
table order, and the test for a constant that is there also takes one
with the name in lower case for it. So a constant is missing on the child
exactly if its lower-cased name came before it (`Taken`).
-/
import PmmpThread.Zend.Foreach
import PmmpThread.Model.Constants

namespace PmmpThread.Model.Constants

open Zend HashTable

variable {ctx : Context} {t t' : HashTable Constant}

-- ================================================================= copies

mutual
/-- What can be copied is copied whole. -/
theorem copyZval_of_copyable (ctx : Context) :
    (v : Value) → v.copyable ctx = true → copyZval ctx v = some v.deref
  | .null, _ | .bool _, _ | .long _, _ | .double _, _ | .string _, _
  | .constantAst _, _ | .object _, _ => rfl
  | .reference referent, h => copyZval_of_copyable ctx referent h
  | .array elements, h => by
      rw [copyZval, copyHash_of_copyable ctx elements h, Value.deref]
  | .closure code, h => by
      change ctx.closureCopied code = true at h
      rw [copyZval, if_pos h]
      rfl
  | .enumCase cls name, h => by
      change ctx.caseResolves cls name = true at h
      rw [copyZval, if_pos h]
      rfl

theorem copyHash_of_copyable (ctx : Context) :
    (es : Elements) → es.copyable ctx = true → copyHash ctx es = es.deref
  | .nil, _ => rfl
  | .cons k v rest, h => by
      rw [Elements.copyable, Bool.and_eq_true] at h
      rw [copyHash, copyZval_of_copyable ctx v h.1,
        copyHash_of_copyable ctx rest h.2, Elements.deref]
end

def Value.isResource : Value → Bool
  | .resource => true
  | _ => false

theorem not_isResource_of_copyable {v : Value}
    (h : v.copyable ctx = true) : v.isResource = false := by
  cases v with
  | resource => cases h
  | _ => rfl

theorem lowerByte_lowerByte (c : UInt8) :
    lowerByte (lowerByte c) = lowerByte c := by
  unfold lowerByte
  split
  case isTrue h =>
    rw [if_neg]
    simp only [Bool.and_eq_true, decide_eq_true_eq, UInt8.le_iff_toNat_le,
      UInt8.toNat_add] at h ⊢
    change 65 ≤ c.toNat ∧ c.toNat ≤ 90 at h
    change ¬ (65 ≤ (c.toNat + 32) % 2 ^ 8 ∧ (c.toNat + 32) % 2 ^ 8 ≤ 90)
    omega
  case isFalse h => rfl

theorem lower_lower (name : List UInt8) : lower (lower name) = lower name := by
  unfold lower
  rw [List.map_map]
  exact List.map_congr_left fun c _ => lowerByte_lowerByte c

-- =============================================================== one round

/-- An entry of a creator's table. -/
def Registered (e : Key × Constant) : Prop :=
  ∃ name, e.1 = .str name ∧ registerName name = name
    ∧ registrable name e.2 = true ∧ e.2.name.isSome = true

theorem prepareConstant_of_resource {name : List UInt8} {c : Constant}
    (hres : c.value.isResource = true) :
    prepareConstant ctx t (.str name, c) = some t := by
  have hv : c.value = .resource := by
    cases hv : c.value with
    | resource => rfl
    | _ => rw [hv] at hres; cases hres
  unfold prepareConstant
  rw [hv]
  cases c.name with
  | none => rfl
  | some n => rfl

theorem prepareConstant_of_not_resource {name : List UInt8} {c : Constant}
    (hr : Registered (.str name, c)) (hres : c.value.isResource = false) :
    prepareConstant ctx t (.str name, c)
      = if constantExists t name then some t
        else (copyZval ctx c.value).map fun v =>
          t.update true (.str name)
            { c with name := some name, value := v } := by
  obtain ⟨name', hname, hreg, hok, hsome⟩ := hr
  injection hname with hname
  subst hname
  obtain ⟨n, hn⟩ := Option.isSome_iff_exists.mp hsome
  change c.name = some n at hn
  have hround : prepareConstant ctx t (.str name, c)
      = if constantExists t name then some t
        else (copyZval ctx c.value).map fun v => registerConstant t name
          { c with name := some name, value := v } := by
    unfold prepareConstant
    simp only [hn]
    cases hv : c.value with
    | resource => rw [hv] at hres; cases hres
    | _ => rfl
  rw [hround]
  cases hex : constantExists t name with
  | true => rfl
  | false =>
      have hnew : t.contains (.str name) = false := by
        unfold constantExists at hex
        exact (Bool.or_eq_false_iff.mp hex).1
      have hadd : ∀ v, registerConstant t name
          { c with name := some name, value := v }
            = t.update true (.str name)
              { c with name := some name, value := v } := by
        intro v
        have hok' : registrable name
            { c with name := some name, value := v } = true := hok
        unfold registerConstant
        simp only [hreg, hok', hnew, Bool.not_false, Bool.and_self, if_true]
      simp only [hadd]

/-- A round leaves a resource and what it takes to be there, and adds
anything else under its own name. -/
theorem prepareConstant_cases {name : List UInt8} {c : Constant}
    (hr : Registered (.str name, c))
    (h : prepareConstant ctx t (.str name, c) = some t') :
    (c.value.isResource = true ∨ constantExists t name = true) ∧ t' = t
      ∨ c.value.isResource = false ∧ constantExists t name = false
        ∧ ∃ v, copyZval ctx c.value = some v
          ∧ t' = t.update true (.str name)
            { c with name := some name, value := v } := by
  cases hres : c.value.isResource with
  | true =>
      rw [prepareConstant_of_resource hres] at h
      exact Or.inl ⟨Or.inl rfl, (Option.some.inj h).symm⟩
  | false =>
      rw [prepareConstant_of_not_resource hr hres] at h
      cases hex : constantExists t name with
      | true =>
          rw [hex, if_pos rfl] at h
          exact Or.inl ⟨Or.inr rfl, (Option.some.inj h).symm⟩
      | false =>
          rw [hex, if_neg Bool.false_ne_true] at h
          obtain ⟨v, hv, ht'⟩ := Option.map_eq_some_iff.mp h
          exact Or.inr ⟨rfl, rfl, v, hv, ht'.symm⟩

/-- A round touches no other name. -/
theorem prepareConstant_frame {e : Key × Constant} (hr : Registered e)
    (h : prepareConstant ctx t e = some t') {k : Key} (hk : k ≠ e.1) :
    t'.find k = t.find k := by
  obtain ⟨k', c⟩ := e
  obtain ⟨name, hname, -⟩ := id hr
  change k' = _ at hname
  subst hname
  rcases prepareConstant_cases hr h with ⟨-, rfl⟩ | ⟨-, -, v, -, rfl⟩
  · rfl
  · exact find_update_ne true t _ hk

/-- A round replaces nothing. -/
theorem prepareConstant_kept {e : Key × Constant} (hr : Registered e)
    (h : prepareConstant ctx t e = some t') {k : Key} {c : Constant}
    (hk : t.find k = some c) : t'.find k = some c := by
  by_cases hke : k = e.1
  · obtain ⟨k', c'⟩ := e
    obtain ⟨name, hname, -⟩ := id hr
    change k = k' at hke
    change k' = _ at hname
    subst hke hname
    rcases prepareConstant_cases hr h with ⟨-, rfl⟩ | ⟨-, hex, -⟩
    · exact hk
    · unfold constantExists contains at hex
      rw [hk] at hex
      cases hex
  · rw [prepareConstant_frame hr h hke]
    exact hk

/-- A lower-cased name is there after a round if it was there before or is
the name of the constant, no resource. -/
theorem prepareConstant_lower {e : Key × Constant} (hr : Registered e)
    (h : prepareConstant ctx t e = some t') {name : List UInt8}
    (hl : lower name = name) :
    t'.contains (.str name) = true
      ↔ t.contains (.str name) = true
        ∨ e.1 = .str name ∧ e.2.value.isResource = false := by
  by_cases hke : e.1 = .str name
  · obtain ⟨k', c⟩ := e
    change k' = _ at hke
    subst hke
    have hex : constantExists t name = t.contains (.str name) := by
      unfold constantExists
      rw [hl, Bool.or_self]
    rcases prepareConstant_cases hr h with ⟨hor, rfl⟩ | ⟨hres, -, v, -, rfl⟩
    · rw [hex] at hor
      refine ⟨Or.inl, ?_⟩
      rintro (hc | ⟨-, hno⟩)
      · exact hc
      · rcases hor with hyes | hc
        · rw [show c.value.isResource = false from hno] at hyes
          cases hyes
        · exact hc
    · refine ⟨fun _ => Or.inr ⟨rfl, hres⟩, fun _ => ?_⟩
      unfold contains
      rw [find_update_self]
      rfl
  · unfold contains
    rw [prepareConstant_frame hr h (Ne.symm hke)]
    exact ⟨Or.inl, fun hor => hor.resolve_right fun hno => hke hno.1⟩

-- ============================================================== all rounds

section Loop

variable {es : List (Key × Constant)} (hr : ∀ e ∈ es, Registered e)
  (h : es.foldlM (prepareConstant ctx) t = some t')

include hr h

theorem loop_frame {k : Key} (hk : k ∉ es.map Prod.fst) :
    t'.find k = t.find k := by
  refine foldlM_induct (P := fun u => u.find k = t.find k) es
    (fun {u e u'} he hu h => ?_) rfl h
  rw [prepareConstant_frame (hr e he) h
    fun hke => hk (List.mem_map.mpr ⟨e, he, hke.symm⟩)]
  exact hu

theorem loop_kept {k : Key} {c : Constant} (hk : t.find k = some c) :
    t'.find k = some c :=
  foldlM_induct (P := fun u => u.find k = some c) es
    (fun he hu h => prepareConstant_kept (hr _ he) h hu) hk h

/-- A lower-cased name is there afterwards exactly if it was there before
or is among the constants and no resource. -/
theorem loop_lower {name : List UInt8} (hl : lower name = name) :
    t'.contains (.str name) = true
      ↔ t.contains (.str name) = true
        ∨ ∃ e ∈ es, e.1 = .str name ∧ e.2.value.isResource = false := by
  refine foldlM_rounds (P := fun pre u => u.contains (.str name) = true
    ↔ t.contains (.str name) = true
      ∨ ∃ e ∈ pre, e.1 = .str name ∧ e.2.value.isResource = false) es
    (by simp) (fun pre e post u u' hes _ hpre hu => ?_) h
  have hre := hr e (hes ▸ List.mem_append_right _ List.mem_cons_self)
  rw [prepareConstant_lower hre hu hl, hpre]
  simp only [List.mem_append, List.mem_singleton, or_and_right, exists_or,
    exists_eq_left, or_assoc]

end Loop

-- ========================================================= a constant's turn

/-- What the test takes for the constant when its turn comes: the
constant or its lower-cased name among the child's own, or the lower-cased
name among the constants before it. -/
def Taken (child : HashTable Constant) (pre : List (Key × Constant))
    (name : List UInt8) : Prop :=
  constantExists child name = true
    ∨ ∃ e ∈ pre, e.1 = .str (lower name) ∧ e.2.value.isResource = false

section Turn

variable {creator : ConstantTable} {child u : HashTable Constant}
  {pre post : List (Key × Constant)} {e : Key × Constant}
  {name : List UInt8}

theorem not_mem_before (hl : creator.table.entries = pre ++ e :: post) :
    e.1 ∉ pre.map Prod.fst ∧ e.1 ∉ post.map Prod.fst := by
  have hnd : (creator.table.entries.map Prod.fst).Nodup := creator.table.nodup
  rw [hl, List.map_append, List.map_cons, List.nodup_append] at hnd
  obtain ⟨-, hpost, hdis⟩ := hnd
  exact ⟨fun hmem => hdis _ hmem _ List.mem_cons_self rfl,
    (List.nodup_cons.mp hpost).1⟩

theorem constantExists_iff (hr : ∀ e ∈ pre, Registered e)
    (hu : pre.foldlM (prepareConstant ctx) child = some u)
    (hname : Key.str name ∉ pre.map Prod.fst) :
    constantExists u name = true ↔ Taken child pre name := by
  have hself : u.contains (.str name) = child.contains (.str name) := by
    unfold contains
    rw [loop_frame hr hu hname]
  unfold Taken constantExists
  rw [Bool.or_eq_true, hself, loop_lower hr hu (lower_lower name),
    Bool.or_eq_true, or_assoc]

theorem prepareConstant_isSome_iff {c : Constant}
    (hr : Registered (.str name, c)) :
    (prepareConstant ctx u (.str name, c)).isSome = true
      ↔ (c.value.isResource = false → constantExists u name = false →
          (copyZval ctx c.value).isSome = true) := by
  cases hres : c.value.isResource with
  | true =>
      rw [prepareConstant_of_resource hres]
      exact ⟨fun _ hno => Bool.noConfusion hno, fun _ => rfl⟩
  | false =>
      rw [prepareConstant_of_not_resource hr hres]
      cases hex : constantExists u name with
      | true => exact ⟨fun _ _ hno => Bool.noConfusion hno, fun _ => rfl⟩
      | false =>
          rw [if_neg Bool.false_ne_true, Option.isSome_map]
          exact ⟨fun h _ _ => h, fun h => h rfl rfl⟩

end Turn

-- ============================================================ inheritance

/-- The engine's own constants, which every thread starts with, have the
same values on both threads. -/
def BuiltIn (creator : ConstantTable) (child : HashTable Constant) : Prop :=
  ∀ k c, child.find k = some c →
    creator.table.find k = some c ∧ c.value.deref = c.value

/-- The child has every constant of the creator whose value can be copied,
under its name and with its value, and every constant of its own as it
was. -/
structure Inherited (ctx : Context) (creator : ConstantTable)
    (child child' : HashTable Constant) : Prop where
  defined : ∀ name c, creator.table.find (.str name) = some c →
    c.value.copyable ctx = true →
      ∃ c', child'.find (.str name) = some c' ∧ c'.value = c.value.deref
  unchanged : ∀ k c, child.find k = some c → child'.find k = some c

/-- A constant that can be copied and that the child has not is not taken
to be there. -/
def Untaken (ctx : Context) (creator : ConstantTable)
    (child : HashTable Constant) : Prop :=
  ∀ pre name c post, creator.table.entries = pre ++ (.str name, c) :: post →
    c.value.copyable ctx = true → child.find (.str name) = none →
      ¬ Taken child pre name

/-- Every constant that is neither a resource nor taken to be there has a
value that `pmmpthread_copy_zval` takes. -/
def AllCopied (ctx : Context) (creator : ConstantTable)
    (child : HashTable Constant) : Prop :=
  ∀ pre name c post, creator.table.entries = pre ++ (.str name, c) :: post →
    c.value.isResource = false → ¬ Taken child pre name →
      (copyZval ctx c.value).isSome = true

variable {creator : ConstantTable} {child child' : HashTable Constant}

theorem registered_of_split {pre post : List (Key × Constant)}
    {e : Key × Constant} (hl : creator.table.entries = pre ++ e :: post) :
    (∀ e ∈ pre, Registered e) ∧ Registered e ∧ ∀ e ∈ post, Registered e := by
  have hreg := creator.registered
  rw [hl] at hreg
  exact ⟨fun e' he' => hreg e' (List.mem_append_left _ he'),
    hreg e (List.mem_append_right _ List.mem_cons_self),
    fun e' he' => hreg e'
      (List.mem_append_right _ (List.mem_cons_of_mem _ he'))⟩

/-- The loop splits at a constant's turn. -/
theorem prepareConstants_split {pre post : List (Key × Constant)}
    {e : Key × Constant} (hl : creator.table.entries = pre ++ e :: post)
    (h : prepareConstants ctx creator child = some child') :
    ∃ u u', pre.foldlM (prepareConstant ctx) child = some u
      ∧ prepareConstant ctx u e = some u'
      ∧ post.foldlM (prepareConstant ctx) u' = some child' := by
  unfold prepareConstants at h
  rw [hl] at h
  obtain ⟨u, hu, h⟩ := foldlM_append_iff.mp h
  obtain ⟨u', hu', h⟩ := foldlM_cons_iff.mp h
  exact ⟨u, u', hu, hu', h⟩

theorem prepareConstants_isSome_iff :
    (prepareConstants ctx creator child).isSome = true
      ↔ AllCopied ctx creator child := by
  constructor
  · intro h pre name c post hl hres htaken
    obtain ⟨child', h⟩ := Option.isSome_iff_exists.mp h
    obtain ⟨hpre, hr, -⟩ := registered_of_split hl
    obtain ⟨u, u', hu, hu', -⟩ := prepareConstants_split hl h
    have hsome := (prepareConstant_isSome_iff hr).mp
      (Option.isSome_iff_exists.mpr ⟨u', hu'⟩)
    refine hsome hres (Bool.eq_false_iff.mpr fun hex => htaken ?_)
    exact (constantExists_iff hpre hu (not_mem_before hl).1).mp hex
  · intro h
    refine foldlM_isSome_iff.mpr fun pre e post hl u hu => ?_
    obtain ⟨hpre, hr, -⟩ := registered_of_split hl
    obtain ⟨k, c⟩ := e
    obtain ⟨name, hname, -⟩ := id hr
    change k = _ at hname
    subst hname
    refine (prepareConstant_isSome_iff hr).mpr fun hres hex => ?_
    refine h pre name c post hl hres fun htaken => ?_
    rw [(constantExists_iff hpre hu (not_mem_before hl).1).mpr htaken] at hex
    cases hex

/-- The loop returns exactly if every value it comes to is taken by
`pmmpthread_copy_zval`, and then the child has every constant that can be
copied exactly if none of them is taken to be there before its turn. -/
theorem constants_inherited_iff (ctx : Context) (creator : ConstantTable)
    (child : HashTable Constant) (hbuiltin : BuiltIn creator child) :
    ((prepareConstants ctx creator child).isSome = true
        ↔ AllCopied ctx creator child)
      ∧ ∀ child', prepareConstants ctx creator child = some child' →
        (Inherited ctx creator child child' ↔ Untaken ctx creator child) := by
  refine ⟨prepareConstants_isSome_iff, fun child' h => ⟨?_, ?_⟩⟩
  · intro hin pre name c post hl hcopy hnew htaken
    obtain ⟨hpre, hr, hpost⟩ := registered_of_split hl
    obtain ⟨hnpre, hnpost⟩ := not_mem_before hl
    obtain ⟨u, u', hu, hu', hrest⟩ := prepareConstants_split hl h
    have hfind : creator.table.find (.str name) = some c := by
      rw [find_eq_some_iff, hl]
      exact List.mem_append_right _ List.mem_cons_self
    obtain ⟨c', hc', -⟩ := hin.defined name c hfind hcopy
    have hex := (constantExists_iff hpre hu hnpre).mpr htaken
    rw [loop_frame hpost hrest hnpost] at hc'
    rcases prepareConstant_cases hr hu' with ⟨-, rfl⟩ | ⟨-, hno, -⟩
    · rw [loop_frame hpre hu hnpre, hnew] at hc'
      cases hc'
    · rw [hex] at hno
      cases hno
  · intro huntaken
    refine ⟨fun name c hfind hcopy => ?_,
      fun k c hk => loop_kept creator.registered h hk⟩
    obtain ⟨pre, post, hl⟩ := List.append_of_mem (find_eq_some_iff.mp hfind)
    obtain ⟨hpre, hr, hpost⟩ := registered_of_split hl
    obtain ⟨hnpre, -⟩ := not_mem_before hl
    obtain ⟨u, u', hu, hu', hrest⟩ := prepareConstants_split hl h
    cases hnew : child.find (.str name) with
    | some c' =>
        obtain ⟨hfind', hderef⟩ := hbuiltin _ _ hnew
        rw [hfind] at hfind'
        rw [← Option.some.inj hfind'] at hderef hnew
        exact ⟨c, loop_kept creator.registered h hnew, hderef.symm⟩
    | none =>
        have htaken := huntaken pre name c post hl hcopy hnew
        rcases prepareConstant_cases hr hu' with ⟨hor, -⟩ | ⟨-, -, v, hv, rfl⟩
        · rcases hor with hres | hex
          · rw [not_isResource_of_copyable hcopy] at hres
            cases hres
          · exact absurd ((constantExists_iff hpre hu hnpre).mp hex) htaken
        · rw [copyZval_of_copyable ctx _ hcopy] at hv
          refine ⟨_, loop_kept hpost hrest (find_update_self true u _ _), ?_⟩
          exact (Option.some.inj hv).symm

-- =========================================================== in which order

/-- `FOO` and `foo`. -/
def upperFoo : List UInt8 := [70, 79, 79]

def lowerFoo : List UInt8 := [102, 111, 111]

/-- `define("FOO", 1); define("foo", 2);`. -/
def upperFirst : ConstantTable :=
  (ConstantTable.empty.define upperFoo (.long 1) (by decide)).define
    lowerFoo (.long 2) (by decide)

/-- `define("foo", 2); define("FOO", 1);`. -/
def lowerFirst : ConstantTable :=
  (ConstantTable.empty.define lowerFoo (.long 2) (by decide)).define
    upperFoo (.long 1) (by decide)

def noContext : Context where
  closureCopied := fun _ => false
  caseResolves := fun _ _ => false

theorem builtIn_init (creator : ConstantTable) :
    BuiltIn creator (.init 8) := by
  intro k c h
  cases h

theorem constants_inherited_iff_upperFirst :
    ∃ child', prepareConstants noContext upperFirst (.init 8) = some child'
      ∧ Inherited noContext upperFirst (.init 8) child' := by
  obtain ⟨-, hiff⟩ :=
    constants_inherited_iff noContext upperFirst _ (builtIn_init _)
  refine ⟨_, rfl, (hiff _ rfl).mpr ?_⟩
  -- `FOO` has nothing before it, and `foo` has only `FOO`
  rintro (_ | ⟨e, _ | ⟨e', pre⟩⟩) name c post hl - -
  · rintro (hex | ⟨e, he, -⟩)
    · cases hex
    · cases he
  · change [(Key.str upperFoo, (⟨some upperFoo, .long 1, false, 0⟩ : Constant)),
      (Key.str lowerFoo, ⟨some lowerFoo, .long 2, false, 0⟩)]
        = [e, (Key.str name, c)] ++ post at hl
    obtain ⟨rfl, htail⟩ := List.cons.inj hl
    obtain ⟨heq, -⟩ := List.cons.inj htail
    have hname : name = lowerFoo :=
      (Key.str.inj (congrArg Prod.fst heq)).symm
    subst hname
    rintro (hex | ⟨e, he, hkey, -⟩)
    · cases hex
    · rw [List.mem_singleton] at he
      subst he
      revert hkey
      decide
  · obtain ⟨-, hl⟩ := List.cons.inj hl
    obtain ⟨-, hl⟩ := List.cons.inj hl
    cases pre <;> cases hl

/-- With `foo` defined first, `FOO` is missing on the child. -/
theorem constants_not_inherited :
    BuiltIn lowerFirst (.init 8)
      ∧ ∃ child', prepareConstants noContext lowerFirst (.init 8) = some child'
        ∧ ¬ Inherited noContext lowerFirst (.init 8) child' := by
  refine ⟨builtIn_init _, _, rfl, fun hin => ?_⟩
  obtain ⟨c', hc', -⟩ :=
    hin.defined upperFoo ⟨some upperFoo, .long 1, false, 0⟩ rfl rfl
  cases hc'

end PmmpThread.Model.Constants
