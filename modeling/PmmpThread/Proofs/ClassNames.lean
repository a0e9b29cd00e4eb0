/-
The class table of a new thread: which names it has, and what they name.

# What is kept

Whatever a copy does, and however deep the recursion is when it does it,
it adds entries under the lower-cased name of the class they are copies
of, and takes nothing out (`Grows`). This is proved once for each
function that gets the recursive call as an argument, and then for
`create`, by induction on the fuel.

# Aliases

The loop of `pmmpthread_prepare_classes` looks for the key it has come to
and creates the entry of the class behind it, which goes under the name
of the class. A key that is not that name, made by `class_alias`, is not
in the new table.
-/
import PmmpThread.Zend.Foreach
import PmmpThread.Model.Classes

namespace PmmpThread.Model.Classes

open Zend
open Constants (lower)

-- ========================================================= association lists

/-- An update replaces or adds one key. -/
theorem lookup_updateList (k k' : Bytes) (r : Ref) (l : List (Bytes × Ref)) :
    (Child.updateList k r l).lookup k'
      = if k' = k then some r else l.lookup k' := by
  induction l with
  | nil =>
      unfold Child.updateList
      split
      case isTrue hk =>
        rw [hk]
        exact List.lookup_cons_self
      case isFalse hk =>
        rw [List.lookup_cons, beq_eq_false_iff_ne.mpr hk]
  | cons e l ih =>
      unfold Child.updateList
      split
      case isTrue he =>
        rw [List.lookup_cons, List.lookup_cons, he]
        split
        case h_1 hk => rw [if_pos (eq_of_beq hk)]
        case h_2 hk => rw [if_neg (beq_eq_false_iff_ne.mp hk)]
      case isFalse he =>
        rw [List.lookup_cons, List.lookup_cons, ih]
        split
        case h_1 hk => rw [if_neg (eq_of_beq hk ▸ he)]
        case h_2 hk => rfl

/-- It adds no other key. -/
theorem mem_keys_updateList {k k' : Bytes} {r : Ref} {l : List (Bytes × Ref)}
    (h : k' ∈ (Child.updateList k r l).map Prod.fst) :
    k' = k ∨ k' ∈ l.map Prod.fst := by
  induction l with
  | nil => exact Or.inl (List.mem_singleton.mp h)
  | cons e l ih =>
      unfold Child.updateList at h
      split at h
      case isTrue he =>
        rcases List.mem_cons.mp h with h | h
        · exact Or.inl h
        · exact Or.inr (List.mem_cons_of_mem _ h)
      case isFalse =>
        rcases List.mem_cons.mp h with h | h
        · exact Or.inr (h ▸ List.mem_cons_self)
        · exact (ih h).imp_right (List.mem_cons_of_mem _)

/-- Names stay different. -/
theorem nodup_updateList {k : Bytes} {r : Ref} {l : List (Bytes × Ref)}
    (h : (l.map Prod.fst).Nodup) :
    ((Child.updateList k r l).map Prod.fst).Nodup := by
  induction l with
  | nil => exact List.nodup_singleton k
  | cons e l ih =>
      obtain ⟨hnot, hl⟩ := List.nodup_cons.mp h
      unfold Child.updateList
      split
      case isTrue he => exact List.nodup_cons.mpr ⟨he ▸ hnot, hl⟩
      case isFalse he =>
        refine List.nodup_cons.mpr ⟨fun hmem => ?_, ih hl⟩
        rcases mem_keys_updateList hmem with hk | hk
        · exact he hk
        · exact hnot hk

/-- What is looked up is in the list, -/
theorem mem_of_lookup {α β : Type} [BEq α] [LawfulBEq α] {k : α} {v : β}
    {l : List (α × β)} (h : l.lookup k = some v) : (k, v) ∈ l := by
  induction l with
  | nil => cases h
  | cons e l ih =>
      rw [List.lookup_cons] at h
      split at h
      case h_1 hk =>
        have hke := eq_of_beq hk
        rw [hke, ← Option.some.inj h]
        exact List.mem_cons_self
      case h_2 => exact List.mem_cons_of_mem _ (ih h)

/-- and with different keys what is in the list is looked up. -/
theorem lookup_of_mem {α β : Type} [BEq α] [LawfulBEq α] {k : α} {v : β}
    {l : List (α × β)} (hnd : (l.map Prod.fst).Nodup) (h : (k, v) ∈ l) :
    l.lookup k = some v := by
  induction l with
  | nil => cases h
  | cons e l ih =>
      obtain ⟨hnot, hnd⟩ := List.nodup_cons.mp hnd
      rcases List.mem_cons.mp h with he | he
      · rw [← he]
        exact List.lookup_cons_self
      · have hne : (k == e.1) = false := by
          rw [beq_eq_false_iff_ne]
          intro hk
          exact hnot (hk ▸ List.mem_map_of_mem he)
        rw [List.lookup_cons, hne]
        exact ih hnd he

namespace Child

variable {C : Creator} {s : Child}

/-- The class table after an update. -/
theorem find_update (s : Child) (k k' : Bytes) (r : Ref) :
    (s.update k r).find k' = if k' = k then some r else s.find k' :=
  lookup_updateList k k' r s.classTable

theorem getElem?_setEntry (s : Child) (a b : Addr) (f : Entry → Entry) :
    (s.setEntry a f).entries[b]?
      = if a = b then s.entries[b]?.map f else s.entries[b]? := by
  unfold setEntry
  simp only []
  rw [List.getElem?_modify]
  split <;> simp_all

end Child

-- ============================================================ the creator

namespace Creator

/-- The classes that a class entry refers to. -/
def refs (C : Creator) (c : ClassId) : List ClassId :=
  let x := C.classes c
  x.parent.toList ++ x.interfaces
    ++ x.functionTable.filterMap (fun e => C.scope e.2)
    ++ x.propertiesInfo.map (fun e => (C.info e.2).ce)
    ++ x.constants.map (fun e => e.2.ce)
    ++ (x.defaultProperties ++ x.defaultStatics
      ++ x.constants.map fun e => e.2.value).filterMap Value.cls?

/-- What is put into the table of the new thread: an entry of its own, or an
immutable class. -/
def Placed (C : Creator) : Ref → Prop
  | .creator c => C.builtin (.creator c) = false
      ∧ (C.classes c).immutable = true
  | .own _ => True

/-- The class is in the table under its own name, or every thread has
it. -/
def Declared (C : Creator) (c : ClassId) : Prop :=
  C.builtin (.creator c) = true
    ∨ C.classTable.lookup (lower (C.classes c).name) = some c

/-- What the engine keeps of a class table: one bucket for a key, a class
that can be found is there under its own name, and so is what it refers
to. Keys with a NUL are of classes that are still to be declared. -/
structure WellFormed (C : Creator) : Prop where
  keys : (C.classTable.map Prod.fst).Nodup
  named : ∀ e ∈ C.classTable, startsNul e.1 = false → C.Declared e.2
  closed : ∀ c, C.Declared c → ∀ d ∈ C.refs c, C.Declared d
  types : ∀ i name c, name ∈ (C.info i).types →
    C.classTable.lookup (lower name) = some c → C.Declared c

namespace WellFormed

variable {C : Creator} {c d : ClassId}

/-- What a declared class names is declared as well: its parent, -/
theorem parent (hC : C.WellFormed) (hc : C.Declared c)
    (h : (C.classes c).parent = some d) : C.Declared d := by
  refine hC.closed c hc d ?_
  simp [refs, h]

/-- its interfaces, -/
theorem interfaces (hC : C.WellFormed) (hc : C.Declared c)
    (h : d ∈ (C.classes c).interfaces) : C.Declared d := by
  refine hC.closed c hc d ?_
  simp [refs, h]

/-- the scopes of its methods, -/
theorem scope (hC : C.WellFormed) (hc : C.Declared c) {e : Bytes × FuncId}
    (he : e ∈ (C.classes c).functionTable) (h : C.scope e.2 = some d) :
    C.Declared d := by
  have hmem : d ∈ (C.classes c).functionTable.filterMap
      fun e => C.scope e.2 := List.mem_filterMap.mpr ⟨e, he, h⟩
  refine hC.closed c hc d ?_
  simp only [refs, List.mem_append]
  tauto

/-- the classes of its properties, -/
theorem info (hC : C.WellFormed) (hc : C.Declared c) {e : Bytes × InfoId}
    (he : e ∈ (C.classes c).propertiesInfo) : C.Declared (C.info e.2).ce := by
  have hmem : (C.info e.2).ce ∈ (C.classes c).propertiesInfo.map
      fun e => (C.info e.2).ce := List.mem_map.mpr ⟨e, he, rfl⟩
  refine hC.closed c hc _ ?_
  simp only [refs, List.mem_append]
  tauto

/-- those of its constants, -/
theorem constant (hC : C.WellFormed) (hc : C.Declared c)
    {e : Bytes × Constant} (he : e ∈ (C.classes c).constants) :
    C.Declared e.2.ce := by
  have hmem : e.2.ce ∈ (C.classes c).constants.map fun e => e.2.ce :=
    List.mem_map.mpr ⟨e, he, rfl⟩
  refine hC.closed c hc _ ?_
  simp only [refs, List.mem_append]
  tauto

/-- and the classes in its default values. -/
theorem value (hC : C.WellFormed) (hc : C.Declared c) {v : Value}
    (hv : v ∈ (C.classes c).defaultProperties ++ (C.classes c).defaultStatics
      ++ (C.classes c).constants.map fun e => e.2.value)
    (h : v.cls? = some d) : C.Declared d := by
  have hmem : d ∈ ((C.classes c).defaultProperties
      ++ (C.classes c).defaultStatics
      ++ (C.classes c).constants.map fun e => e.2.value).filterMap
        Value.cls? := List.mem_filterMap.mpr ⟨v, hv, h⟩
  refine hC.closed c hc d ?_
  simp only [refs, List.mem_append] at hmem ⊢
  tauto

end WellFormed

end Creator

-- ============================================================== what is kept

section Names

variable {C : Creator} {s₀ s s' : Child}

/-- A pointer that the copying may be given. -/
def Known (C : Creator) (s : Child) : Ref → Prop
  | .creator c => C.Declared c
  | .own a => ∃ e, s.entries[a]? = some e

/-- The new thread's table has what it started with, and copies under
their own names. -/
structure NameInv (C : Creator) (s₀ s : Child) : Prop where
  nodup : (s.classTable.map Prod.fst).Nodup
  table : ∀ (k : Bytes) (r : Ref), s.find k = some r → s₀.find k = some r
    ∨ C.Placed r ∧ Known C s r ∧ k = lower (s.nameOf C r)
  entries : ∀ (a : Addr) (e : Entry), s.entries[a]? = some e →
    e.name = (C.classes e.origin).name ∧ C.Declared e.origin
      ∧ C.builtin (.creator e.origin) = false
  scopes : ∀ (f : FuncId) (r : Ref), s.scopes f = some (some r) → Known C s r

/-- Names stay, and entries stay what they are copies of. -/
structure Grows (C : Creator) (s₀ s s' : Child) : Prop where
  inv : NameInv C s₀ s'
  keys : ∀ k : Bytes, (s.find k).isSome = true → (s'.find k).isSome = true
  entries : ∀ (a : Addr) (e : Entry), s.entries[a]? = some e →
    ∃ e', s'.entries[a]? = some e' ∧ e'.origin = e.origin ∧ e'.name = e.name

theorem Grows.refl (h : NameInv C s₀ s) : Grows C s₀ s s :=
  ⟨h, fun _ h => h, fun _ e he => ⟨e, he, rfl, rfl⟩⟩

theorem Grows.trans {u : Child} (h : Grows C s₀ s u) (h' : Grows C s₀ u s') :
    Grows C s₀ s s' := by
  refine ⟨h'.inv, fun k hk => h'.keys k (h.keys k hk), fun a e he => ?_⟩
  obtain ⟨e₁, he₁, ho₁, hn₁⟩ := h.entries a e he
  obtain ⟨e₂, he₂, ho₂, hn₂⟩ := h'.entries a e₁ he₁
  exact ⟨e₂, he₂, ho₂.trans ho₁, hn₂.trans hn₁⟩

/-- Pointers stay good. -/
theorem Known.mono {r : Ref} (h : Known C s r) (hg : Grows C s₀ s s') :
    Known C s' r := by
  cases r with
  | creator c => exact h
  | own a =>
      obtain ⟨e, he⟩ := h
      obtain ⟨e', he', -⟩ := hg.entries a e he
      exact ⟨e', he'⟩

/-- What a copy has of its original for good. -/
def Entry.ident (e : Entry) : ClassId × Bytes := (e.origin, e.name)

/-- What changes neither the table nor what entries are copies of. -/
theorem grows_of_same (h : NameInv C s₀ s)
    (htable : s'.classTable = s.classTable)
    (hentries : ∀ a : Addr, s'.entries[a]?.map Entry.ident
      = s.entries[a]?.map Entry.ident)
    (hscopes : ∀ (f : FuncId) (r : Ref), s'.scopes f = some (some r) →
      s.scopes f = some (some r) ∨ Known C s r) : Grows C s₀ s s' := by
  have hfind : ∀ k, s'.find k = s.find k := fun k => by
    unfold Child.find
    rw [htable]
  have hold : ∀ (a : Addr) (e' : Entry), s'.entries[a]? = some e' →
      ∃ e, s.entries[a]? = some e ∧ e.origin = e'.origin ∧ e.name = e'.name := by
    intro a e' he'
    have hm := hentries a
    rw [he'] at hm
    obtain ⟨e, he, heq⟩ := Option.map_eq_some_iff.mp hm.symm
    exact ⟨e, he, (Prod.mk.inj heq).1, (Prod.mk.inj heq).2⟩
  have hnew : ∀ (a : Addr) (e : Entry), s.entries[a]? = some e →
      ∃ e', s'.entries[a]? = some e' ∧ e'.origin = e.origin
        ∧ e'.name = e.name := by
    intro a e he
    have hm := hentries a
    rw [he] at hm
    obtain ⟨e', he', heq⟩ := Option.map_eq_some_iff.mp hm
    exact ⟨e', he', (Prod.mk.inj heq).1, (Prod.mk.inj heq).2⟩
  have hknown : ∀ r, Known C s r → Known C s' r := by
    intro r hr
    cases r with
    | creator c => exact hr
    | own a =>
        obtain ⟨e, he⟩ := hr
        obtain ⟨e', he', -⟩ := hnew a e he
        exact ⟨e', he'⟩
  have hname : ∀ r, s'.nameOf C r = s.nameOf C r := by
    intro r
    cases r with
    | creator c => rfl
    | own a =>
        have hm := congrArg (Option.map Prod.snd) (hentries a)
        rw [Option.map_map, Option.map_map] at hm
        exact congrArg (Option.getD · []) hm
  refine ⟨⟨?_, fun k r hk => ?_, fun a e he => ?_, fun f r hf => ?_⟩,
    fun k hk => by rw [hfind]; exact hk, hnew⟩
  · rw [htable]
    exact h.nodup
  · rw [hfind] at hk
    rw [hname]
    exact (h.table k r hk).imp_right fun ⟨hb, hr, hn⟩ =>
      ⟨hb, hknown r hr, hn⟩
  · obtain ⟨e₀, he₀, ho, hn⟩ := hold a e he
    rw [← ho, ← hn]
    exact h.entries a e₀ he₀
  · rcases hscopes f r hf with hf | hr
    · exact hknown r (h.scopes f r hf)
    · exact hknown r hr

/-- A change inside a copy leaves its name and what it is a copy of. -/
theorem grows_setEntry (h : NameInv C s₀ s) (a : Addr) {f : Entry → Entry}
    (hf : ∀ e, (f e).origin = e.origin ∧ (f e).name = e.name) :
    Grows C s₀ s (s.setEntry a f) := by
  refine grows_of_same h rfl (fun b => ?_) fun _ _ hf => Or.inl hf
  rw [Child.getElem?_setEntry]
  split
  case isFalse => rfl
  case isTrue =>
    rw [Option.map_map]
    exact congrArg (Option.map · _)
      (funext fun e => Prod.ext (hf e).1 (hf e).2)

/-- A function gets the scope it was copied with. -/
theorem grows_setScope (h : NameInv C s₀ s) (f : FuncId) {r : Ref}
    (hr : Known C s r) : Grows C s₀ s (s.setScope f r) := by
  refine grows_of_same h rfl (fun _ => rfl) fun f' r' hf' => ?_
  change Function.update s.scopes f (some (some r)) f' = _ at hf'
  by_cases hff : f' = f
  · rw [hff, Function.update_self] at hf'
    rw [← Option.some.inj (Option.some.inj hf')]
    exact Or.inr hr
  · rw [Function.update_of_ne hff] at hf'
    exact Or.inl hf'

/-- Property infos have no part in names. -/
theorem grows_setInfo (h : NameInv C s₀ s) (i : InfoId) (c : InfoCopy) :
    Grows C s₀ s (s.setInfo i c) :=
  grows_of_same h rfl (fun _ => rfl) fun _ _ hf => Or.inl hf

/-- Loops, by their rounds. -/
theorem foldlM_grows {α : Type} {f : Child → α → Option Child} (l : List α)
    (hf : ∀ {u e u'}, e ∈ l → Grows C s₀ s u → f u e = some u' →
      Grows C s₀ u u') :
    ∀ {u}, Grows C s₀ s u → l.foldlM f u = some s' → Grows C s₀ s s' :=
  fun hu h => foldlM_induct l (fun he hu h => hu.trans (hf he hu h)) hu h

-- ============================================== one copy, by its functions

/-- What the recursive call does for whoever makes it. -/
def RecOk (C : Creator) (s₀ : Child) (rec : Prepared) : Prop :=
  ∀ r s q, NameInv C s₀ s → Known C s r → rec r s = some q →
    Grows C s₀ s q.2 ∧ Known C q.2 q.1
      ∧ (q.2.find (lower (s.nameOf C r))).isSome = true

variable {rec : Prepared}

/-- The recursive call for a class of the creator. -/
theorem RecOk.creator (hrec : RecOk C s₀ rec) {d : ClassId}
    {q : Ref × Child} (hs : NameInv C s₀ s) (hd : C.Declared d)
    (h : rec (.creator d) s = some q) : Grows C s₀ s q.2 :=
  (hrec (.creator d) s q hs hd h).1

/-- A class of the creator that the copying may be given. -/
def Original (C : Creator) (r : Ref) : Prop :=
  ∃ d, r = .creator d ∧ C.Declared d

/-- A list of dependencies, one after the other. -/
theorem prepareAll_grows (hrec : RecOk C s₀ rec) :
    ∀ (rs : List Ref) {s : Child} {q : List Ref × Child},
      (∀ r ∈ rs, Original C r) → NameInv C s₀ s →
      Creator.prepareAll rec rs s = some q → Grows C s₀ s q.2 := by
  intro rs
  induction rs with
  | nil =>
      intro s q _ hs h
      injection h with h
      exact h ▸ Grows.refl hs
  | cons r rs ih =>
      intro s q hr hs h
      obtain ⟨p, hp, h⟩ := Option.bind_eq_some_iff.mp h
      obtain ⟨qs, hqs, rfl⟩ := Option.map_eq_some_iff.mp h
      obtain ⟨d, rfl, hd⟩ := hr r List.mem_cons_self
      have hg := hrec.creator hs hd hp
      have hgs := ih (fun e he => hr e (List.mem_cons_of_mem _ he)) hg.inv hqs
      exact hg.trans hgs

/-- Each part of a copy in the order of the source: the parent, -/
theorem prepareParent_grows (hrec : RecOk C s₀ rec) {x : ClassEntry}
    {a : Addr} (hx : ∀ p, x.parent = some p → C.Declared p)
    (hs : NameInv C s₀ s)
    (h : Creator.prepareParent rec x a s = some s') : Grows C s₀ s s' := by
  unfold Creator.prepareParent at h
  split at h
  case isFalse =>
    injection h with h
    exact h ▸ Grows.refl hs
  case isTrue =>
    split at h
    case h_2 =>
      injection h with h
      exact h ▸ Grows.refl hs
    case h_1 p hp =>
      obtain ⟨q, hq, rfl⟩ := Option.map_eq_some_iff.mp h
      have hg := hrec.creator hs (hx p hp) hq
      exact hg.trans (grows_setEntry hg.inv a fun _ => ⟨rfl, rfl⟩)

/-- the interfaces, -/
theorem prepareInterfaces_grows (hrec : RecOk C s₀ rec) {x : ClassEntry}
    {a : Addr} (hx : ∀ d ∈ x.interfaces, C.Declared d)
    (hs : NameInv C s₀ s)
    (h : Creator.prepareInterfaces rec x a s = some s') :
    Grows C s₀ s s' := by
  unfold Creator.prepareInterfaces at h
  split at h
  case isFalse =>
    injection h with h
    exact h ▸ Grows.refl hs
  case isTrue =>
    obtain ⟨q, hq, rfl⟩ := Option.map_eq_some_iff.mp h
    have hg := prepareAll_grows hrec (x.interfaces.map .creator)
      (fun r hr => by
        obtain ⟨d, hd, rfl⟩ := List.mem_map.mp hr
        exact ⟨d, rfl, hx d hd⟩) hs hq
    exact hg.trans (grows_setEntry hg.inv a fun _ => ⟨rfl, rfl⟩)

/-- a function with its scope, -/
theorem copyFunction_grows {f : FuncId}
    (hf : ∀ d, C.scope f = some d → C.Declared d) (hs : NameInv C s₀ s) :
    Grows C s₀ s (C.copyFunction s f) := by
  unfold Creator.copyFunction
  split
  case h_1 => exact Grows.refl hs
  case h_2 =>
    refine grows_of_same hs rfl (fun _ => rfl) fun f' r hf' => ?_
    change Function.update s.scopes f _ f' = _ at hf'
    by_cases hff : f' = f
    · rw [hff, Function.update_self] at hf'
      obtain ⟨d, hd, rfl⟩ := Option.map_eq_some_iff.mp (Option.some.inj hf')
      exact Or.inr (hf d hd)
    · rw [Function.update_of_ne hff] at hf'
      exact Or.inl hf'

theorem prepareFunction_grows {a : Addr} {e : Bytes × FuncId}
    (hf : ∀ d, C.scope e.2 = some d → C.Declared d) (hs : NameInv C s₀ s) :
    Grows C s₀ s (C.prepareFunction a s e) := by
  unfold Creator.prepareFunction
  split
  case isTrue => exact Grows.refl hs
  case isFalse =>
    have hg := copyFunction_grows hf hs
    exact hg.trans (grows_setEntry hg.inv a fun _ => ⟨rfl, rfl⟩)

/-- the function table, -/
theorem prepareFunctions_grows {a : Addr} (l : List (Bytes × FuncId)) :
    ∀ {s}, (∀ e ∈ l, ∀ d, C.scope e.2 = some d → C.Declared d) →
      NameInv C s₀ s → Grows C s₀ s (l.foldl (C.prepareFunction a) s) := by
  induction l with
  | nil => exact fun _ hs => Grows.refl hs
  | cons e l ih =>
      intro s hl hs
      have hg := prepareFunction_grows (a := a) (hl e List.mem_cons_self) hs
      exact hg.trans (ih (fun e he => hl e (List.mem_cons_of_mem _ he)) hg.inv)

/-- The classes of values are declared. -/
def ValuesOk (C : Creator) (vs : List Value) : Prop :=
  ∀ v ∈ vs, ∀ d, v.cls? = some d → C.Declared d

/-- what is done again where a class is completed, -/
theorem completeEntry_grows (hC : C.WellFormed) (hrec : RecOk C s₀ rec)
    {c : ClassId} {a : Addr} (hc : C.Declared c) (hs : NameInv C s₀ s)
    (h : C.completeEntry rec c a s = some s') : Grows C s₀ s s' := by
  unfold Creator.completeEntry at h
  obtain ⟨u, hu, h⟩ := Option.bind_eq_some_iff.mp h
  obtain ⟨v, hv, rfl⟩ := Option.map_eq_some_iff.mp h
  have hset : Grows C s₀ s (s.setEntry a fun e =>
      { e with linked := (C.classes c).linked }) :=
    grows_setEntry hs a fun _ => ⟨rfl, rfl⟩
  have hparent := hset.trans
    (prepareParent_grows hrec (fun p hp => hC.parent hc hp) hset.inv hu)
  have hifaces := hparent.trans
    (prepareInterfaces_grows hrec (fun d hd => hC.interfaces hc hd)
      hparent.inv hv)
  exact hifaces.trans
    (prepareFunctions_grows _ (fun e he d hd => hC.scope hc he hd)
      hifaces.inv)

/-- a default value, which may be a constant expression with a class, -/
theorem copyValue_grows (hrec : RecOk C s₀ rec) {v : Value}
    {q : Option CopyVal × Child} (hv : ∀ d, v.cls? = some d → C.Declared d)
    (hs : NameInv C s₀ s) (h : C.copyValue rec s v = some q) :
    Grows C s₀ s q.2 := by
  cases v with
  | plain code =>
      injection h with h
      exact h ▸ Grows.refl hs
  | other =>
      injection h with h
      exact h ▸ Grows.refl hs
  | enumCase cls name =>
      obtain ⟨p, hp, rfl⟩ := Option.map_eq_some_iff.mp h
      exact hrec.creator hs (hv cls rfl) hp

/-- a property info, -/
theorem copyInfo_grows (hrec : RecOk C s₀ rec) {c : ClassId} {a : Addr}
    {i : InfoId} (hi : C.Declared (C.info i).ce) (hs : NameInv C s₀ s)
    (h : C.copyInfo rec c a s i = some s') : Grows C s₀ s s' := by
  unfold Creator.copyInfo at h
  split at h
  case h_1 =>
    injection h with h
    exact h ▸ Grows.refl hs
  case h_2 =>
    have hset := grows_setInfo hs i ⟨.creator (C.info i).ce, (C.info i).offset⟩
    dsimp only at h
    split at h
    case isTrue =>
      injection h with h
      exact h ▸ hset.trans (grows_setInfo hset.inv i _)
    case isFalse =>
      obtain ⟨q, hq, rfl⟩ := Option.map_eq_some_iff.mp h
      have hg := hset.trans (hrec.creator hset.inv hi hq)
      exact hg.trans (grows_setInfo hg.inv i _)

theorem prepareInfo_grows (hrec : RecOk C s₀ rec) {c : ClassId} {a : Addr}
    {e : Bytes × InfoId} (hi : C.Declared (C.info e.2).ce)
    (hs : NameInv C s₀ s) (h : C.prepareInfo rec c a s e = some s') :
    Grows C s₀ s s' := by
  unfold Creator.prepareInfo at h
  split at h
  case isTrue =>
    injection h with h
    exact h ▸ Grows.refl hs
  case isFalse =>
    obtain ⟨u, hu, rfl⟩ := Option.map_eq_some_iff.mp h
    have hg := copyInfo_grows hrec hi hs hu
    exact hg.trans (grows_setEntry hg.inv a fun _ => ⟨rfl, rfl⟩)

/-- the default values, -/
theorem copyDefaults_grows (hrec : RecOk C s₀ rec) :
    ∀ (vs : List Value) {s : Child} {q : List CopyVal × Child},
      ValuesOk C vs → NameInv C s₀ s →
      C.copyDefaults rec vs s = some q → Grows C s₀ s q.2 := by
  intro vs
  induction vs with
  | nil =>
      intro s q _ hs h
      injection h with h
      exact h ▸ Grows.refl hs
  | cons v vs ih =>
      intro s q hv hs h
      obtain ⟨p, hp, h⟩ := Option.bind_eq_some_iff.mp h
      obtain ⟨qs, hqs, rfl⟩ := Option.map_eq_some_iff.mp h
      have hg := copyValue_grows hrec (hv v List.mem_cons_self) hs hp
      have hgs := ih (fun w hw => hv w (List.mem_cons_of_mem _ hw)) hg.inv hqs
      exact hg.trans hgs

theorem copySlots_grows (hrec : RecOk C s₀ rec) :
    ∀ (vs : List Value) {s : Child} {q : List Slot × Child},
      ValuesOk C vs → NameInv C s₀ s →
      C.copySlots rec vs s = some q → Grows C s₀ s q.2 := by
  intro vs
  induction vs with
  | nil =>
      intro s q _ hs h
      injection h with h
      exact h ▸ Grows.refl hs
  | cons v vs ih =>
      intro s q hv hs h
      obtain ⟨qs, hqs, h⟩ := Option.bind_eq_some_iff.mp h
      obtain ⟨p, hp, rfl⟩ := Option.map_eq_some_iff.mp h
      have hgs := ih (fun w hw => hv w (List.mem_cons_of_mem _ hw)) hs hqs
      have hg := copyValue_grows hrec (hv v List.mem_cons_self) hgs.inv hp
      exact hgs.trans hg

/-- the property table, -/
theorem preparePropertyTable_grows (hC : C.WellFormed)
    (hrec : RecOk C s₀ rec) {c : ClassId} {a : Addr} (hc : C.Declared c)
    (hs : NameInv C s₀ s) (h : C.preparePropertyTable rec c a s = some s') :
    Grows C s₀ s s' := by
  unfold Creator.preparePropertyTable at h
  obtain ⟨u, hu, h⟩ := Option.bind_eq_some_iff.mp h
  obtain ⟨q, hq, rfl⟩ := Option.map_eq_some_iff.mp h
  have hinfos := foldlM_grows _
    (fun he hg hu' => prepareInfo_grows hrec (hC.info hc he) hg.inv hu')
    (Grows.refl hs) hu
  have hdefaults := hinfos.trans
    (copyDefaults_grows hrec _ (fun v hv d hd => hC.value hc
      (List.mem_append_left _ (List.mem_append_left _ hv)) hd)
      hinfos.inv hq)
  exact hdefaults.trans (grows_setEntry hdefaults.inv a fun _ => ⟨rfl, rfl⟩)

/-- the static members, which the parent may have, -/
theorem prepareStatics_grows (hC : C.WellFormed) (hrec : RecOk C s₀ rec)
    {fuel : Nat} {c : ClassId} {a : Addr} (hc : C.Declared c)
    (hs : NameInv C s₀ s)
    (h : C.prepareStatics fuel rec c a s = some s') : Grows C s₀ s s' := by
  unfold Creator.prepareStatics at h
  dsimp only at h
  split at h
  case isTrue =>
    injection h with h
    exact h ▸ Grows.refl hs
  case isFalse =>
    obtain ⟨q, hq, h⟩ := Option.bind_eq_some_iff.mp h
    obtain ⟨slots, -, rfl⟩ := Option.map_eq_some_iff.mp h
    have hslots := copySlots_grows hrec _ (fun v hv d hd => hC.value hc
      (List.mem_append_left _
        (List.mem_append_right _ (List.mem_of_mem_drop hv))) hd) hs hq
    have htable : Grows C s₀ q.2
        { q.2 with tables := q.2.tables ++ [slots ++ q.1] } :=
      grows_of_same hslots.inv rfl (fun _ => rfl) fun _ _ hf => Or.inl hf
    have hg := hslots.trans htable
    exact hg.trans (grows_setEntry hg.inv a fun _ => ⟨rfl, rfl⟩)

theorem constantValue_grows (hrec : RecOk C s₀ rec) {a : Addr}
    {zc : Constant} {q : CopyVal × Child}
    (hv : ∀ d, zc.value.cls? = some d → C.Declared d) (hs : NameInv C s₀ s)
    (h : C.constantValue rec a s zc = some q) : Grows C s₀ s q.2 := by
  unfold Creator.constantValue at h
  split at h
  case h_1 =>
    injection h with h
    exact h ▸ Grows.refl hs
  case h_2 =>
    obtain ⟨p, hp, h⟩ := Option.bind_eq_some_iff.mp h
    obtain ⟨w, -, rfl⟩ := Option.map_eq_some_iff.mp h
    exact copyValue_grows hrec hv hs hp

/-- a constant, -/
theorem prepareConstant_grows (hrec : RecOk C s₀ rec) {a : Addr}
    {e : Bytes × Constant} (hce : C.Declared e.2.ce)
    (hv : ∀ d, e.2.value.cls? = some d → C.Declared d) (hs : NameInv C s₀ s)
    (h : C.prepareConstant rec a s e = some s') : Grows C s₀ s s' := by
  unfold Creator.prepareConstant at h
  split at h
  case isTrue =>
    injection h with h
    exact h ▸ Grows.refl hs
  case isFalse =>
    obtain ⟨q, hq, h⟩ := Option.bind_eq_some_iff.mp h
    obtain ⟨p, hp, rfl⟩ := Option.map_eq_some_iff.mp h
    have hg := constantValue_grows hrec hv hs hq
    have hg' := hg.trans (hrec.creator hg.inv hce hp)
    exact hg'.trans (grows_setEntry hg'.inv a fun _ => ⟨rfl, rfl⟩)

/-- late bindings, -/
theorem lateBindings_grows (hC : C.WellFormed) (hrec : RecOk C s₀ rec)
    {fuel : Nat} {c : ClassId} {a : Addr} (hc : C.Declared c)
    (hs : NameInv C s₀ s)
    (h : C.lateBindings fuel rec c a s = some s') : Grows C s₀ s s' := by
  unfold Creator.lateBindings at h
  split at h
  case isTrue =>
    injection h with h
    exact h ▸ Grows.refl hs
  case isFalse =>
    obtain ⟨u, hu, h⟩ := Option.bind_eq_some_iff.mp h
    obtain ⟨v, hv, h⟩ := Option.bind_eq_some_iff.mp h
    have hprops := preparePropertyTable_grows hC hrec hc hs hu
    have hstatics := hprops.trans
      (prepareStatics_grows hC hrec hc hprops.inv hv)
    exact hstatics.trans (foldlM_grows _ (fun he hg hu' =>
      prepareConstant_grows hrec (hC.constant hc he)
        (fun d hd => hC.value hc (List.mem_append_right _
          (List.mem_map.mpr ⟨_, he, rfl⟩)) hd) hg.inv hu')
      (Grows.refl hstatics.inv) h)

theorem updateFunctionScope_grows (hrec : RecOk C s₀ rec) {c : ClassId}
    {a : Addr} {f : FuncId} (ha : Known C s (.own a)) (hs : NameInv C s₀ s)
    (h : C.updateFunctionScope rec c a s f = some s') :
    Grows C s₀ s s' := by
  unfold Creator.updateFunctionScope at h
  split at h
  case h_2 =>
    injection h with h
    exact h ▸ Grows.refl hs
  case h_1 r hr =>
    split at h
    case isTrue =>
      injection h with h
      exact h ▸ grows_setScope hs f ha
    case isFalse =>
      split at h
      case isFalse =>
        injection h with h
        exact h ▸ Grows.refl hs
      case isTrue =>
        obtain ⟨q, hq, rfl⟩ := Option.map_eq_some_iff.mp h
        obtain ⟨hg, hk, -⟩ := hrec r s q hs (hs.scopes f r hr) hq
        exact hg.trans (grows_setScope hg.inv f hk)

/-- and the scopes of the methods. -/
theorem updateScopes_grows (hrec : RecOk C s₀ rec) {c : ClassId} {a : Addr}
    (ha : Known C s (.own a)) (hs : NameInv C s₀ s)
    (h : C.updateScopes rec c a s = some s') : Grows C s₀ s s' :=
  foldlM_grows _ (fun _ hg hu' =>
    updateFunctionScope_grows hrec (ha.mono hg) hg.inv hu')
    (Grows.refl hs) h

/-- An immutable class depends on classes of the creator. -/
theorem immutableDependencies_declared (hC : C.WellFormed) {c : ClassId}
    (hc : C.Declared c) :
    ∀ r ∈ C.immutableDependencies (C.classes c), Original C r := by
  intro r hr
  unfold Creator.immutableDependencies at hr
  rcases List.mem_append.mp hr with hr | hr
  · split at hr
    case isFalse => cases hr
    case isTrue =>
      rcases List.mem_append.mp hr with hr | hr
      · obtain ⟨d, hd, rfl⟩ := List.mem_map.mp hr
        exact ⟨d, rfl, hC.parent hc (Option.mem_toList.mp hd)⟩
      · obtain ⟨d, hd, rfl⟩ := List.mem_map.mp hr
        exact ⟨d, rfl, hC.interfaces hc hd⟩
  · obtain ⟨e, -, hr⟩ := List.mem_flatMap.mp hr
    obtain ⟨name, hname, hr⟩ := List.mem_filterMap.mp hr
    obtain ⟨d, hd, rfl⟩ := Option.map_eq_some_iff.mp hr
    exact ⟨d, rfl, hC.types e.2 name d hname hd⟩

/-- A copy goes into the table under its own name. -/
theorem grows_update (hs : NameInv C s₀ s) {k : Bytes} {r : Ref}
    (hr : Known C s r) (hb : C.Placed r)
    (hk : k = lower (s.nameOf C r)) : Grows C s₀ s (s.update k r) := by
  refine ⟨⟨nodup_updateList hs.nodup, fun k' r' h => ?_, hs.entries,
    hs.scopes⟩, fun k' h => ?_, fun _ e he => ⟨e, he, rfl, rfl⟩⟩
  · rw [Child.find_update] at h
    split at h
    case isTrue hkk =>
      rw [← Option.some.inj h, hkk]
      exact Or.inr ⟨hb, hr, hk⟩
    case isFalse => exact hs.table k' r' h
  · rw [Child.find_update]
    split
    case isTrue => rfl
    case isFalse => exact h

/-- A new entry is named as its class. -/
theorem grows_append (hs : NameInv C s₀ s) {c : ClassId} (hc : C.Declared c)
    (hb : C.builtin (.creator c) = false) :
    Grows C s₀ s { s with entries := s.entries ++ [C.newEntry c] } := by
  have hold : ∀ (a : Addr) (e : Entry), s.entries[a]? = some e →
      (s.entries ++ [C.newEntry c])[a]? = some e := by
    intro a e he
    obtain ⟨ha, -⟩ := List.getElem?_eq_some_iff.mp he
    rw [List.getElem?_append_left ha]
    exact he
  have hg : ∀ r, Known C s r →
      Known C { s with entries := s.entries ++ [C.newEntry c] } r
      ∧ Child.nameOf C { s with entries := s.entries ++ [C.newEntry c] } r
        = s.nameOf C r := by
    intro r hr
    cases r with
    | creator d => exact ⟨hr, rfl⟩
    | own a =>
        obtain ⟨e, he⟩ := hr
        refine ⟨⟨e, hold a e he⟩, ?_⟩
        show ((s.entries ++ [C.newEntry c])[a]?.map Entry.name).getD []
          = (s.entries[a]?.map Entry.name).getD []
        rw [he, hold a e he]
  refine ⟨⟨hs.nodup, fun k r h => ?_, fun a e he => ?_, fun f r h => ?_⟩,
    fun _ h => h, fun a e he => ⟨e, hold a e he, rfl, rfl⟩⟩
  · rcases hs.table k r h with h | ⟨hrb, hr, hk⟩
    · exact Or.inl h
    · refine Or.inr ⟨hrb, (hg r hr).1, ?_⟩
      rw [(hg r hr).2]
      exact hk
  · by_cases ha : a < s.entries.length
    · change (s.entries ++ [C.newEntry c])[a]? = some e at he
      rw [List.getElem?_append_left ha] at he
      exact hs.entries a e he
    · change (s.entries ++ [C.newEntry c])[a]? = some e at he
      rw [List.getElem?_append_right (Nat.le_of_not_lt ha)] at he
      rw [List.mem_singleton.mp (List.mem_of_getElem? he)]
      exact ⟨rfl, hc, hb⟩
  · exact (hg r (hs.scopes f r h)).1

/-- The whole copy of a class that was not there. -/
theorem createNew_grows (hC : C.WellFormed) {dep : Prepared}
    (hrec : RecOk C s₀ rec) (hdep : RecOk C s₀ dep) {fuel : Nat}
    {c : ClassId} {late : Bool} {q : Ref × Child} (hc : C.Declared c)
    (hb : C.builtin (.creator c) = false) (hs : NameInv C s₀ s)
    (h : C.createNew fuel rec dep c late s = some q) :
    Grows C s₀ s q.2 ∧ Known C q.2 q.1
      ∧ (q.2.find (lower (C.classes c).name)).isSome = true := by
  unfold Creator.createNew at h
  dsimp only at h
  split at h
  case isTrue himm =>
    obtain ⟨p, hp, rfl⟩ := Option.map_eq_some_iff.mp h
    have hup : Grows C s₀ s (s.update (lower (C.classes c).name)
      (.creator c)) := grows_update hs hc ⟨hb, himm⟩ rfl
    have hg := prepareAll_grows hdep _ (immutableDependencies_declared hC hc)
      hup.inv hp
    refine ⟨hup.trans hg, hc, hg.keys _ ?_⟩
    rw [Child.find_update, if_pos rfl]
    rfl
  case isFalse =>
    obtain ⟨u, hu, h⟩ := Option.bind_eq_some_iff.mp h
    obtain ⟨v, hv, h⟩ := Option.bind_eq_some_iff.mp h
    obtain ⟨w, hw, rfl⟩ := Option.map_eq_some_iff.mp h
    have hnew := grows_append hs hc hb
    have hcomp := completeEntry_grows hC hrec hc hnew.inv hu
    have hentry : ({ s with entries := s.entries ++ [C.newEntry c] } :
        Child).entries[s.entries.length]? = some (C.newEntry c) :=
      List.getElem?_concat_length
    obtain ⟨e, he, -, hename⟩ := hcomp.entries _ _ hentry
    have hname : lower (C.classes c).name
        = lower (u.nameOf C (.own s.entries.length)) := by
      show _ = lower ((u.entries[s.entries.length]?.map Entry.name).getD [])
      rw [he]
      show _ = lower e.name
      rw [hename]
      rfl
    have hku : Known C u (.own s.entries.length) := ⟨e, he⟩
    have hup := grows_update hcomp.inv hku trivial hname
    have hfind : ((u.update (lower (C.classes c).name)
        (.own s.entries.length)).find
          (lower (C.classes c).name)).isSome = true := by
      rw [Child.find_update, if_pos rfl]
      rfl
    have hlate : Grows C s₀ (u.update (lower (C.classes c).name)
        (.own s.entries.length)) v := by
      split at hv
      case isTrue => exact lateBindings_grows hC hrec hc hup.inv hv
      case isFalse =>
        injection hv with hv
        exact hv ▸ Grows.refl hup.inv
    have hka : Known C v (.own s.entries.length) :=
      (hku.mono hup).mono hlate
    have hsc := updateScopes_grows hrec hka hlate.inv hw
    exact ⟨((hnew.trans hcomp).trans hup).trans (hlate.trans hsc),
      hka.mono hsc, (hlate.trans hsc).keys _ hfind⟩

-- ============================================================ thread start

/-- The entry is what the new thread has of the creator's class: a copy, or
the class itself where all threads share it. -/
def IsCopy (C : Creator) (s : Child) (c : ClassId) : Ref → Prop
  | .creator d => d = c ∧ (C.builtin (.creator c) = true
      ∨ (C.classes c).immutable = true)
  | .own a => ∃ e, s.entries[a]? = some e ∧ e.origin = c

/-- A thread before it has copied anything. -/
structure Fresh (C : Creator) (s : Child) : Prop where
  keys : (s.classTable.map Prod.fst).Nodup
  entries : s.entries = []
  scopes : ∀ f, s.scopes f = none
  infos : ∀ i, s.infos i = none
  table : ∀ (k : Bytes) (r : Ref), s.find k = some r →
    ∃ c, r = .creator c ∧ C.builtin (.creator c) = true
      ∧ C.classTable.lookup k = some c

/-- The invariant holds at first. -/
theorem Fresh.inv (h : Fresh C s) : NameInv C s s := by
  refine ⟨h.keys, fun _ _ hk => Or.inl hk, fun a e he => ?_,
    fun f r hf => ?_⟩
  · rw [h.entries] at he
    cases he
  · rw [h.scopes] at hf
    cases hf

/-- What the table has are good pointers. -/
theorem NameInv.known (h₀ : Fresh C s₀) (hs : NameInv C s₀ s) {k : Bytes}
    {r : Ref} (h : s.find k = some r) : Known C s r := by
  rcases hs.table k r h with h | ⟨-, hr, -⟩
  · obtain ⟨c, rfl, hb, -⟩ := h₀.table k r h
    exact Or.inl hb
  · exact hr

/-- The recursive call is right, however deep it may go. -/
theorem create_ok (hC : C.WellFormed) (h₀ : Fresh C s₀) (fuel : Nat) :
    ∀ late, RecOk C s₀ fun r s => C.create fuel r late s := by
  induction fuel with
  | zero =>
      intro late r s q _ _ h
      cases h
  | succ fuel ih =>
      intro late r s q hs hr h
      dsimp only [Creator.create] at h
      split at h
      case isTrue =>
        obtain ⟨p, hp, rfl⟩ := Option.map_eq_some_iff.mp h
        refine ⟨Grows.refl hs, hs.known h₀ hp, ?_⟩
        rw [hp]
        rfl
      case isFalse hb =>
        rw [Bool.not_eq_true] at hb
        split at h
        case h_1 c _ =>
          exact createNew_grows hC (ih true) (ih late)
            hr hb hs h
        case h_2 => cases h
        case h_3 r _ _ p hp =>
          have hkp := hs.known h₀ hp
          have hfind : (s.find (lower (s.nameOf C r))).isSome = true := by
            rw [hp]
            rfl
          have hsame : ∀ q', some (p, s) = some q' → Grows C s₀ s q'.2
              ∧ Known C q'.2 q'.1
              ∧ (q'.2.find (lower (s.nameOf C r))).isSome = true := by
            intro q' hq'
            rw [← Option.some.inj hq']
            exact ⟨Grows.refl hs, hkp, hfind⟩
          split at h
          case isFalse => exact hsame q h
          case isTrue =>
            split at h
            case h_1 a c _ =>
              obtain ⟨u, hu, h⟩ := Option.bind_eq_some_iff.mp h
              obtain ⟨v, hv, rfl⟩ := Option.map_eq_some_iff.mp h
              have hcomp := completeEntry_grows hC (ih true) hr hs hu
              have hlate : Grows C s₀ u v := by
                split at hv
                case isTrue =>
                  exact lateBindings_grows hC (ih true) hr hcomp.inv hv
                case isFalse =>
                  injection hv with hv
                  exact hv ▸ Grows.refl hcomp.inv
              have hg := hcomp.trans hlate
              exact ⟨hg, hkp.mono hg, hg.keys _ hfind⟩
            case h_2 c' c _ =>
              exact createNew_grows hC (ih true) (ih late) hr hb hs h
            case h_3 => exact hsame q h

/-- One round of `pmmpthread_prepare_classes`; afterwards the name is
there. -/
theorem prepareClass_grows (hC : C.WellFormed) (h₀ : Fresh C s₀)
    {fuel : Nat} {e : Bytes × ClassId} (he : e ∈ C.classTable)
    (hs : NameInv C s₀ s) (h : C.prepareClass fuel s e = some s') :
    Grows C s₀ s s' ∧ (Creator.startsNul e.1 = false →
      e.1 = lower (C.classes e.2).name → (s'.find e.1).isSome = true) := by
  unfold Creator.prepareClass at h
  split at h
  case isTrue hk =>
    rw [Bool.and_eq_true] at hk
    obtain ⟨q, hq, rfl⟩ := Option.map_eq_some_iff.mp h
    have hnul : Creator.startsNul e.1 = false := by
      rw [← Bool.not_eq_true']
      exact hk.2
    obtain ⟨hg, -, hfind⟩ := create_ok hC h₀ fuel false (.creator e.2) s q hs
      (hC.named e he hnul) hq
    refine ⟨hg, fun _ hname => ?_⟩
    rw [hname]
    exact hfind
  case isFalse hk =>
    injection h with h
    subst h
    refine ⟨Grows.refl hs, fun hnul _ => ?_⟩
    rw [Bool.and_eq_true, hnul, not_and] at hk
    rw [Option.isSome_iff_ne_none]
    exact fun hn => hk (by rw [hn]; rfl) rfl

/-- Under a key of the new table is what the creator has there. -/
theorem NameInv.isCopy (h₀ : Fresh C s₀) (hs : NameInv C s₀ s) {k : Bytes}
    {r : Ref} (h : s.find k = some r) :
    ∃ c, C.classTable.lookup k = some c ∧ C.Declared c ∧ IsCopy C s c r
      ∧ ((s₀.find k).isSome = true ∨ k = lower (C.classes c).name) := by
  rcases hs.table k r h with h | ⟨hp, hr, hk⟩
  · obtain ⟨c, rfl, hb, hl⟩ := h₀.table k r h
    refine ⟨c, hl, Or.inl hb, ⟨rfl, Or.inl hb⟩, Or.inl ?_⟩
    rw [h]
    rfl
  · cases r with
    | creator c =>
        have hl : C.classTable.lookup (lower (C.classes c).name) = some c :=
          hr.resolve_left (by rw [hp.1]; exact Bool.false_ne_true)
        exact ⟨c, hk ▸ hl, hr, ⟨rfl, Or.inr hp.2⟩, Or.inr hk⟩
    | own a =>
        obtain ⟨e, he⟩ := hr
        obtain ⟨hname, hdec, hb⟩ := hs.entries a e he
        have hk' : k = lower (C.classes e.origin).name := by
          rw [hk, ← hname]
          show lower ((s.entries[a]?.map Entry.name).getD []) = _
          rw [he]
          rfl
        have hl : C.classTable.lookup (lower (C.classes e.origin).name)
            = some e.origin :=
          hdec.resolve_left (by rw [hb]; exact Bool.false_ne_true)
        exact ⟨e.origin, hk' ▸ hl, hdec, ⟨e, he, rfl⟩, Or.inr hk'⟩

/-- One round of the second loop. -/
theorem contextLateBinding_grows (hC : C.WellFormed) (h₀ : Fresh C s₀)
    {fuel : Nat} {e : Bytes × Ref} (hkey : s.find e.1 = some e.2)
    {u : Child} (hs : NameInv C s₀ s) (hu : Grows C s₀ s u)
    (h : C.contextLateBinding fuel u e = some s') : Grows C s₀ u s' := by
  unfold Creator.contextLateBinding at h
  split at h
  case h_2 =>
    injection h with h
    exact h ▸ Grows.refl hu.inv
  case h_1 a ha =>
    obtain ⟨c, hc, h⟩ := Option.bind_eq_some_iff.mp h
    obtain ⟨d, hd, hdec, -, -⟩ := hs.isCopy h₀ hkey
    have hcd : c = d := Option.some.inj (hc.symm.trans hd)
    exact lateBindings_grows hC (create_ok hC h₀ fuel true) (hcd ▸ hdec)
      hu.inv h

/-- The first loop, by its rounds. -/
theorem prepareClasses_loop (hC : C.WellFormed) (h₀ : Fresh C s₀)
    {fuel : Nat} (l : List (Bytes × ClassId)) :
    ∀ {s}, (∀ e ∈ l, e ∈ C.classTable) → NameInv C s₀ s →
      l.foldlM (C.prepareClass fuel) s = some s' → Grows C s₀ s s'
        ∧ ∀ e ∈ l, Creator.startsNul e.1 = false →
          e.1 = lower (C.classes e.2).name → (s'.find e.1).isSome = true := by
  intro s hl hs h
  obtain ⟨-, hg, hvisit⟩ := foldlM_visits (P := NameInv C s₀)
    (R := Grows C s₀) .refl .trans l (fun he hu h => by
      have hg := (prepareClass_grows hC h₀ (hl _ he) hu h).1
      exact ⟨hg.inv, hg⟩) hs h
  refine ⟨hg, fun e he hnul hname => ?_⟩
  obtain ⟨u, u', hu, -, hround, -, hu'⟩ := hvisit e he
  exact hu'.keys _ ((prepareClass_grows hC h₀ (hl e he) hu hround).2 hnul hname)

/-- The new thread has each name of the creator for the same class, if and
only if each is one that every thread has or the class's own. -/
theorem prepareClasses_resolves_iff (hC : C.WellFormed) (hs : Fresh C s)
    {fuel : Nat} (h : C.prepareClasses fuel s = some s') :
    (∀ k c, (k, c) ∈ C.classTable → Creator.startsNul k = false →
        ∃ r, s'.find k = some r ∧ IsCopy C s' c r)
      ↔ ∀ k c, (k, c) ∈ C.classTable → Creator.startsNul k = false →
        (s.find k).isSome = true ∨ k = lower (C.classes c).name := by
  obtain ⟨u, hu, h⟩ := Option.bind_eq_some_iff.mp h
  obtain ⟨hg, hfind⟩ :=
    prepareClasses_loop hC hs C.classTable (fun _ he => he) hs.inv hu
  have hlate : Grows C s u s' := by
    refine foldlM_grows u.classTable (fun he hv h => ?_) (Grows.refl hg.inv) h
    exact contextLateBinding_grows hC hs (lookup_of_mem hg.inv.nodup he)
      hg.inv hv h
  constructor
  case mp =>
    intro hall k c hmem hnul
    obtain ⟨r, hr, hcopy⟩ := hall k c hmem hnul
    obtain ⟨d, hd, -, -, hk⟩ := hlate.inv.isCopy hs hr
    have hcd : d = c := Option.some.inj
      (hd.symm.trans (lookup_of_mem hC.keys hmem))
    exact hcd ▸ hk
  case mpr =>
    intro hnames k c hmem hnul
    have hsome : (s'.find k).isSome = true := by
      rcases hnames k c hmem hnul with hk | hk
      · exact hlate.keys k (hg.keys k hk)
      · exact hlate.keys k (hfind (k, c) hmem hnul hk)
    obtain ⟨r, hr⟩ := Option.isSome_iff_exists.mp hsome
    obtain ⟨d, hd, -, hcopy, -⟩ := hlate.inv.isCopy hs hr
    have hcd : d = c := Option.some.inj
      (hd.symm.trans (lookup_of_mem hC.keys hmem))
    exact ⟨r, hr, hcd ▸ hcopy⟩

end Names

-- ================================================================ examples

/-- A class without members, and with `parent`. -/
def bareClass (name : Bytes) (parent : Option ClassId) : ClassEntry :=
  { name := name, internal := false, preloaded := false, immutable := false,
    anon := false, linked := true, isEnum := false, parent := parent,
    interfaces := [], functionTable := [], propertiesInfo := [],
    defaultProperties := [], defaultStatics := [], constants := [] }

/-- Class 1, `b`, extends class 0, `a`. -/
def familyClass (c : ClassId) : ClassEntry :=
  if c = 1 then bareClass [98] (some 0) else bareClass [97] none

/-- The two classes under the given keys. -/
def family (table : List (Bytes × ClassId)) : Creator :=
  { classes := familyClass, scope := fun _ => none,
    info := fun _ => ⟨0, 0, []⟩, classTable := table }

/-- A thread that has no classes. -/
def emptyChild : Child :=
  { entries := [], classTable := [], scopes := fun _ => none,
    infos := fun _ => none, tables := [] }

theorem emptyChild_fresh (C : Creator) : Fresh C emptyChild :=
  ⟨List.nodup_nil, rfl, fun _ => rfl, fun _ => rfl, fun _ _ h => by cases h⟩

theorem family_wellFormed {table : List (Bytes × ClassId)}
    (hkeys : (table.map Prod.fst).Nodup)
    (ha : table.lookup [97] = some 0) (hb : table.lookup [98] = some 1)
    (hc : ∀ e ∈ table, e.2 = 0 ∨ e.2 = 1) :
    (family table).WellFormed := by
  have h₀ : (family table).Declared 0 := Or.inr ha
  have h₁ : (family table).Declared 1 := Or.inr hb
  refine ⟨hkeys, fun e he _ => ?_, fun c _ d hd => ?_, fun i name c hn => ?_⟩
  · rcases hc e he with he | he
    · exact he ▸ h₀
    · exact he ▸ h₁
  · by_cases hc1 : c = 1
    · rw [hc1] at hd
      rw [List.mem_singleton.mp (show d ∈ [0] from hd)]
      exact h₀
    · have hrefs : (family table).refs c = [] := by
        simp [Creator.refs, family, familyClass, hc1, bareClass]
      rw [hrefs] at hd
      cases hd
  · cases hn

theorem family_resolves :
    ∃ s', (family [([98], 1), ([97], 0)]).prepareClasses 4 emptyChild
        = some s'
      ∧ ∀ k c, (k, c) ∈ (family [([98], 1), ([97], 0)]).classTable →
        Creator.startsNul k = false → ∃ r, s'.find k = some r
          ∧ IsCopy (family [([98], 1), ([97], 0)]) s' c r := by
  have hsome : ((family [([98], 1), ([97], 0)]).prepareClasses 4
      emptyChild).isSome = true := by decide
  obtain ⟨s', hs'⟩ := Option.isSome_iff_exists.mp hsome
  refine ⟨s', hs', (prepareClasses_resolves_iff
    (family_wellFormed (by decide) rfl rfl (by decide))
    (emptyChild_fresh _) hs').mpr ?_⟩
  intro k c hmem _
  rcases List.mem_cons.mp hmem with he | hmem
  · injection he with hk hc
    rw [hk, hc]
    exact Or.inr rfl
  · rcases List.mem_cons.mp hmem with he | hmem
    · injection he with hk hc
      rw [hk, hc]
      exact Or.inr rfl
    · cases hmem

/-- An alias of a class, `class_alias("B", "C")`, is not on the new
thread. -/
theorem family_alias_missing :
    (family [([97], 0), ([98], 1), ([99], 1)]).WellFormed
    ∧ Fresh (family [([97], 0), ([98], 1), ([99], 1)]) emptyChild
    ∧ ∃ s', (family [([97], 0), ([98], 1), ([99], 1)]).prepareClasses 4
          emptyChild = some s'
      ∧ ¬ ∀ k c, (k, c) ∈ (family [([97], 0), ([98], 1), ([99], 1)]).classTable →
        Creator.startsNul k = false → ∃ r, s'.find k = some r
          ∧ IsCopy (family [([97], 0), ([98], 1), ([99], 1)]) s' c r := by
  refine ⟨family_wellFormed (by decide) rfl rfl (by decide),
    emptyChild_fresh _, ?_⟩
  have hnone : (((family [([97], 0), ([98], 1), ([99], 1)]).prepareClasses 4
      emptyChild).map fun s' => (s'.find [99]).isNone) = some true := by decide
  obtain ⟨s', hs', hfind⟩ := Option.map_eq_some_iff.mp hnone
  refine ⟨s', hs', fun hall => ?_⟩
  obtain ⟨r, hr, -⟩ := hall [99] 1 (by decide) rfl
  rw [hr] at hfind
  cases hfind

end PmmpThread.Model.Classes
