/-
The slots of a class copy against those of the class.

PHP fills the slot of every magic method by its name. The copy is filled
by name too, with two differences: `__debuginfo` is not on the list, and a
class without `__construct` gets the method stored under its own name.
What is set once stays, so the second difference also counts where the
class gets a constructor later, when it is linked.
-/
import PmmpThread.Model.Interceptors

namespace PmmpThread.Model.Classes

variable {name : Bytes} {m : Methods} {s t : FunctionTable} {k : Bytes}

-- ====================================================== function tables

theorem any_key_iff : (t.any fun f => f.1 == k) = (t.lookup k).isSome := by
  induction t with
  | nil => rfl
  | cons e t ih =>
      rw [List.any_cons, List.lookup_cons, ih, Bool.beq_comm]
      cases k == e.1 <;> rfl

/-- The copied table has the functions it had and the new ones. -/
theorem lookup_prepareFunctionTable (s t : FunctionTable) (k : Bytes) :
    (prepareFunctionTable s t).lookup k = (t.lookup k).or (s.lookup k) := by
  unfold prepareFunctionTable
  induction s generalizing t with
  | nil => exact (Option.or_none).symm
  | cons e s ih =>
      obtain ⟨k', f'⟩ := e
      rw [List.foldl_cons, ih, any_key_iff]
      cases hk : k == k' with
      | true =>
          rw [List.lookup_cons, hk]
          rw [beq_iff_eq] at hk
          subst hk
          cases ht : t.lookup k with
          | some f => simp [ht]
          | none => simp [ht, List.lookup_append]
      | false =>
          rw [List.lookup_cons, hk]
          split
          · rfl
          · rw [List.lookup_append, List.lookup_cons, hk]
            simp

/-- The two models of `prepare_class_function_table` agree: it is the table
that the copy has after `prepareFunction` on every method of the class. -/
theorem prepareFunctions_functionTable {C : Creator} {a : Addr} {c : Child}
    {e : Entry} (h : c.entries[a]? = some e) (s : FunctionTable) :
    (s.foldl (C.prepareFunction a) c).entries[a]?
      = some { e with
          functionTable := prepareFunctionTable s e.functionTable } := by
  unfold prepareFunctionTable
  induction s generalizing c e with
  | nil => exact h
  | cons x s ih =>
      have hcopy : (C.copyFunction c x.2).entries = c.entries := by
        unfold Creator.copyFunction
        split <;> rfl
      rw [List.foldl_cons, List.foldl_cons]
      unfold Creator.prepareFunction
      rw [h, Option.any_some]
      split
      · exact ih h
      · refine ih (e := { e with functionTable := e.functionTable ++ [x] }) ?_
        show ((C.copyFunction c x.2).entries.modify a _)[a]? = _
        rw [hcopy, List.getElem?_modify_eq, h]
        rfl

/-- What the first table has, the second has too. -/
def Within (s t : FunctionTable) : Prop :=
  ∀ k f, s.lookup k = some f → t.lookup k = some f

theorem lookup_prepare_within (h : Within t s) (k : Bytes) :
    (prepareFunctionTable s t).lookup k = s.lookup k := by
  rw [lookup_prepareFunctionTable]
  cases ht : t.lookup k with
  | none => rfl
  | some f => rw [h k f ht]; rfl

-- ================================================================ slots

theorem setSlot_self (slots : Slots) (f : Interceptor)
    (func : Option FuncId) :
    setSlot slots f func f = (slots f).or func := by
  unfold setSlot
  cases h : slots f with
  | some g => simp [h]
  | none => simp

theorem setSlot_ne (slots : Slots) {f g : Interceptor} (h : g ≠ f)
    (func : Option FuncId) : setSlot slots f func g = slots g := by
  unfold setSlot
  cases slots f with
  | some _ => rfl
  | none => exact Function.update_of_ne h _ _

theorem lookup_of_length (h : t.length = 0) (k : Bytes) :
    t.lookup k = none := by
  rw [List.length_eq_zero_iff.mp h]
  rfl

theorem findAndSet_apply (t : FunctionTable) (slots : Slots)
    (f g : Interceptor) :
    findAndSet t slots f g
      = if g = f then (slots g).or (t.lookup g.name) else slots g := by
  unfold findAndSet
  split
  case isTrue h0 =>
    rw [lookup_of_length h0, Option.or_none, ite_self]
  case isFalse =>
    split
    case isTrue h => rw [h, setSlot_self]
    case isFalse h => exact setSlot_ne slots h _

theorem findAndSets_apply (t : FunctionTable) (l : List Interceptor) :
    ∀ (slots : Slots) (g : Interceptor),
      l.foldl (findAndSet t) slots g
        = if g ∈ l then (slots g).or (t.lookup g.name) else slots g := by
  induction l with
  | nil => exact fun _ _ => rfl
  | cons f l ih =>
      intro slots g
      rw [List.foldl_cons, ih, findAndSet_apply]
      by_cases hf : g = f
      · subst hf
        rw [if_pos rfl, if_pos List.mem_cons_self]
        split
        · rw [Option.or_assoc, Option.or_self]
        · rfl
      · simp only [List.mem_cons, hf, false_or, if_false]

theorem findConstructor_constructor (t : FunctionTable) (slots : Slots) :
    findConstructor name t slots .constructor
      = (slots .constructor).or
        ((t.lookup Interceptor.constructor.name).or (t.lookup name)) := by
  unfold findConstructor
  split
  case isTrue h0 => simp [lookup_of_length h0]
  case isFalse => exact setSlot_self _ _ _

theorem findConstructor_ne (t : FunctionTable) (slots : Slots)
    {g : Interceptor} (h : g ≠ .constructor) :
    findConstructor name t slots g = slots g := by
  unfold findConstructor
  split
  · rfl
  · exact setSlot_ne slots h _

/-- The constructor after one pass. -/
theorem prepare_constructor (t : FunctionTable) (slots : Slots) :
    prepareClassInterceptors name t slots .constructor
      = (slots .constructor).or
        ((t.lookup Interceptor.constructor.name).or (t.lookup name)) := by
  unfold prepareClassInterceptors
  rw [findAndSets_apply, if_neg (by decide), findConstructor_constructor]

/-- A pass leaves this slot alone. -/
theorem prepare_debugInfo (t : FunctionTable) (slots : Slots) :
    prepareClassInterceptors name t slots .debugInfo = slots .debugInfo := by
  unfold prepareClassInterceptors
  rw [findAndSets_apply, if_neg (by decide),
    findConstructor_ne _ _ (by decide)]

/-- Every other slot after one pass. -/
theorem prepare_listed (t : FunctionTable) (slots : Slots)
    {g : Interceptor} (hc : g ≠ .constructor) (hd : g ≠ .debugInfo) :
    prepareClassInterceptors name t slots g
      = (slots g).or (t.lookup g.name) := by
  have hmem : g ∈ findList := by
    cases g <;> first | contradiction | decide
  unfold prepareClassInterceptors
  rw [findAndSets_apply, if_pos hmem, findConstructor_ne _ _ hc]

-- ============================================================= the passes

/-- Linking adds methods and changes none: what an earlier table has, a
later one has too. -/
def Growing (tables : List FunctionTable) : Prop := tables.Pairwise Within

/-- PHP fills the slots by the names of the magic methods. -/
def FilledByName (t : FunctionTable) (slots : Slots) : Prop :=
  ∀ f : Interceptor, slots f = t.lookup f.name

/-- The copy has the slots of the class. -/
def KeepsMagic (slots : Slots) (m : Methods) : Prop :=
  ∀ f : Interceptor, m.slots f = slots f

/-- With the table `t` the copy does not get another constructor than the
class has in the end, with `final`: there is `__construct`, or there is no
method under the name of the class. -/
def NoNamesake (name : Bytes) (final t : FunctionTable) : Prop :=
  t.lookup Interceptor.constructor.name = none →
    t.lookup name = none
      ∨ t.lookup name = final.lookup Interceptor.constructor.name

instance : Decidable (NoNamesake name s t) :=
  inferInstanceAs (Decidable (_ → _))

/-- One pass with a table that has all there is. -/
theorem complete_lookup (h : Within m.functionTable t) (k : Bytes) :
    (m.complete name t).functionTable.lookup k = t.lookup k :=
  lookup_prepare_within h k

theorem complete_within (h : Within m.functionTable t) (hs : Within t s) :
    Within (m.complete name t).functionTable s := by
  intro k f hk
  rw [complete_lookup h] at hk
  exact hs k f hk

/-- A slot of the list holds the function of the table, once it is set. -/
theorem passes_listed {g : Interceptor} (hc : g ≠ .constructor)
    (hd : g ≠ .debugInfo) (tables : List FunctionTable) :
    ∀ {m : Methods}, Growing tables →
      (∀ t ∈ tables, Within m.functionTable t) →
      m.slots g = m.functionTable.lookup g.name →
      (m.passes name tables).slots g
        = (m.passes name tables).functionTable.lookup g.name := by
  induction tables with
  | nil => exact fun _ _ h => h
  | cons t tables ih =>
      intro m hgrow hin hg
      obtain ⟨hhead, htail⟩ := List.pairwise_cons.mp hgrow
      have hmt := hin t List.mem_cons_self
      refine ih htail (fun s hs => complete_within hmt (hhead s hs)) ?_
      show prepareClassInterceptors name
        (prepareFunctionTable t m.functionTable) m.slots g = _
      rw [prepare_listed _ _ hc hd, hg, lookup_prepare_within hmt]
      show _ = (m.complete name t).functionTable.lookup g.name
      rw [complete_lookup hmt]
      cases hm : m.functionTable.lookup g.name with
      | none => rfl
      | some f => rw [hmt _ _ hm]; rfl

theorem passes_debugInfo (tables : List FunctionTable) :
    ∀ m : Methods, (m.passes name tables).slots .debugInfo
      = m.slots .debugInfo := by
  induction tables with
  | nil => exact fun _ => rfl
  | cons t tables ih =>
      intro m
      refine (ih (m.complete name t)).trans ?_
      exact prepare_debugInfo _ _

/-- A constructor that is set stays. -/
theorem passes_constructor_set {f : FuncId} (tables : List FunctionTable) :
    ∀ {m : Methods}, m.slots .constructor = some f →
      (m.passes name tables).slots .constructor = some f := by
  induction tables with
  | nil => exact fun h => h
  | cons t tables ih =>
      intro m h
      refine ih (m := m.complete name t) ?_
      show prepareClassInterceptors name _ m.slots .constructor = _
      rw [prepare_constructor, h]
      rfl

/-- The functions after all passes are those of the last one. -/
theorem passes_lookup (tables : List FunctionTable) (final : FunctionTable)
    (k : Bytes) :
    ∀ {m : Methods}, Growing (tables ++ [final]) →
      (∀ t ∈ tables ++ [final], Within m.functionTable t) →
      (m.passes name (tables ++ [final])).functionTable.lookup k
        = final.lookup k := by
  induction tables with
  | nil =>
      intro m _ hin
      exact complete_lookup (hin final List.mem_cons_self) k
  | cons t tables ih =>
      intro m hgrow hin
      obtain ⟨hhead, htail⟩ := List.pairwise_cons.mp hgrow
      exact ih htail fun s hs =>
        complete_within (hin t List.mem_cons_self) (hhead s hs)

/-- The constructor after all passes. The first pass that finds one
decides; the later ones agree with it on both names. -/
theorem passes_constructor_iff (tables : List FunctionTable)
    (final : FunctionTable) :
    ∀ {m : Methods}, Growing (tables ++ [final]) →
      (∀ t ∈ tables ++ [final], Within m.functionTable t) →
      m.slots .constructor = none →
      ((m.passes name (tables ++ [final])).slots .constructor
          = final.lookup Interceptor.constructor.name
        ↔ ∀ t ∈ tables ++ [final], NoNamesake name final t) := by
  induction tables with
  | nil =>
      intro m _ hin hnone
      have hslot : (m.complete name final).slots .constructor
          = (final.lookup Interceptor.constructor.name).or
            (final.lookup name) := by
        have hin' := hin final List.mem_cons_self
        show prepareClassInterceptors name
          (prepareFunctionTable final m.functionTable) m.slots _ = _
        rw [prepare_constructor, hnone, lookup_prepare_within hin',
          lookup_prepare_within hin']
        rfl
      show (m.complete name final).slots .constructor = _ ↔ _
      rw [hslot, List.nil_append, List.forall_mem_singleton]
      unfold NoNamesake
      cases hc : final.lookup Interceptor.constructor.name with
      | some f => simp
      | none => simp
  | cons t tables ih =>
      intro m hgrow hin hnone
      have hgrow' := hgrow
      rw [List.cons_append] at hgrow'
      obtain ⟨hhead, htail⟩ := List.pairwise_cons.mp hgrow'
      have hin' := hin t List.mem_cons_self
      have hfinal : Within t final :=
        hhead final (List.mem_append_right _ List.mem_cons_self)
      have hslot : (m.complete name t).slots .constructor
          = (t.lookup Interceptor.constructor.name).or (t.lookup name) := by
        show prepareClassInterceptors name
          (prepareFunctionTable t m.functionTable) m.slots _ = _
        rw [prepare_constructor, hnone, lookup_prepare_within hin',
          lookup_prepare_within hin']
        rfl
      show ((m.complete name t).passes name (tables ++ [final])).slots _ = _
        ↔ _
      rw [List.cons_append, List.forall_mem_cons]
      cases hc : t.lookup Interceptor.constructor.name with
      | some f =>
          -- every table from here on has `__construct`
          rw [hc] at hslot
          rw [passes_constructor_set _ hslot, hfinal _ _ hc]
          refine ⟨fun _ => ⟨fun h => ?_, fun s hs h => ?_⟩, fun _ => rfl⟩
          · rw [hc] at h
            cases h
          · rw [hhead s hs _ _ hc] at h
            cases h
      | none =>
          rw [hc, Option.none_or] at hslot
          cases hn : t.lookup name with
          | none =>
              rw [hn] at hslot
              rw [ih htail (fun s hs => complete_within hin' (hhead s hs))
                hslot]
              exact ⟨fun h => ⟨fun _ => Or.inl hn, h⟩, fun h => h.2⟩
          | some f =>
              -- the namesake is the constructor, whatever comes later
              rw [hn] at hslot
              rw [passes_constructor_set _ hslot]
              refine ⟨fun h => ⟨fun _ => Or.inr (hn.trans h),
                fun s hs _ => Or.inr ?_⟩, fun h => ?_⟩
              · rw [hhead s hs _ _ hn]
                exact h
              · rcases h.1 hc with h | h
                · rw [hn] at h
                  cases h
                · exact hn.symm.trans h

/-- A copy that was completed with the tables the class had, from the
first pass to the last: its slots are those of the class exactly if the
class has no `__debugInfo`, and had no method under its own name at a time
when it had no `__construct`. -/
theorem copy_keepsMagic_iff (name : Bytes) (tables : List FunctionTable)
    (final : FunctionTable) (slots : Slots)
    (hgrow : Growing (tables ++ [final])) (hphp : FilledByName final slots) :
    KeepsMagic slots (Methods.init.passes name (tables ++ [final]))
      ↔ slots .debugInfo = none
        ∧ ∀ t ∈ tables ++ [final], NoNamesake name final t := by
  have hin : ∀ t ∈ tables ++ [final],
      Within Methods.init.functionTable t := fun _ _ _ _ h => by cases h
  have hctor : (Methods.init.passes name (tables ++ [final])).slots
      .constructor = final.lookup Interceptor.constructor.name
        ↔ ∀ t ∈ tables ++ [final], NoNamesake name final t :=
    passes_constructor_iff tables final hgrow hin rfl
  have hdebug : (Methods.init.passes name (tables ++ [final])).slots
      .debugInfo = Methods.init.slots .debugInfo :=
    passes_debugInfo (tables ++ [final]) Methods.init
  constructor
  · intro h
    refine ⟨(h .debugInfo).symm.trans hdebug, hctor.mp ?_⟩
    rw [h .constructor, hphp]
  · rintro ⟨hnone, hno⟩ f
    by_cases hc : f = .constructor
    · subst hc
      rw [hctor.mpr hno, hphp]
    · by_cases hd : f = .debugInfo
      · subst hd
        rw [hdebug, hnone]
        rfl
      · rw [passes_listed hc hd _ hgrow hin rfl,
          passes_lookup tables final _ hgrow hin, hphp]

/-- A class that extends a class with `__construct` and is linked between
the two passes. -/
theorem copy_keepsMagic_iff_linked :
    KeepsMagic (fun f =>
        [(ascii "__get", 1), (ascii "__construct", 2)].lookup f.name)
        (Methods.init.passes (ascii "Child")
          ([[(ascii "__get", 1)]]
            ++ [[(ascii "__get", 1), (ascii "__construct", 2)]])) := by
  refine (copy_keepsMagic_iff (ascii "Child") [[(ascii "__get", 1)]]
    [(ascii "__get", 1), (ascii "__construct", 2)] _ ?_ fun _ => rfl).mpr
    ⟨by decide, by decide⟩
  refine List.pairwise_cons.mpr ⟨fun t ht k f hk => ?_,
    List.pairwise_singleton _ _⟩
  rw [List.mem_singleton.mp ht]
  rw [List.lookup_cons] at hk ⊢
  cases hkey : k == ascii "__get" with
  | true =>
      rw [hkey] at hk
      exact hk
  | false =>
      rw [hkey] at hk
      cases hk

/-- A class with `__debugInfo`, and a class `foo` with a method `foo` and
no constructor. -/
theorem copy_not_keepsMagic :
    (Methods.init.complete (ascii "A") [(ascii "__debuginfo", 1)]).slots
        .debugInfo = none
      ∧ (Methods.init.complete (ascii "foo") [(ascii "foo", 1)]).slots
        .constructor = some 1
      ∧ ¬ ∀ (name : Bytes) (t : FunctionTable) (slots : Slots),
        FilledByName t slots →
          KeepsMagic slots (Methods.init.complete name t) := by
  have hdebug : (Methods.init.complete (ascii "A")
      [(ascii "__debuginfo", 1)]).slots .debugInfo = none := by decide
  refine ⟨hdebug, by decide, fun h => ?_⟩
  have hslot := h (ascii "A") [(ascii "__debuginfo", 1)]
    (fun f => [(ascii "__debuginfo", 1)].lookup f.name) (fun _ => rfl)
    .debugInfo
  rw [hdebug] at hslot
  revert hslot
  decide

end PmmpThread.Model.Classes
