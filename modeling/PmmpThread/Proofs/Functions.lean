/-
When a kept copy is the copy of what is there now.

The tables of the destination keep a copy under an address of the source,
and neither table is told when the source's memory is freed. `Sound` says
that an entry under the address of a live function is a copy of that
function. A copy keeps it (`copyFunctionEx_sound`), whatever the order in
which functions inside functions are met; memory that is freed keeps it;
only memory that is taken again can break it, and it does not as long as
no table has an entry for it (`NotReused`).
-/
import PmmpThread.Model.Functions
import PmmpThread.Zend.Foreach

namespace PmmpThread.Model.Functions

variable {Op Lit Sig Val : Type}

open PmmpThread.Model.Functions.Function (nodes nodesOf codes)

-- ==================================================================== trees

theorem Function.self_mem_nodes (f : Function Op Lit Sig Val) :
    f ∈ f.nodes := by
  cases f with
  | mk op defs =>
      rw [Function.nodes]
      exact List.mem_cons_self

theorem nodesOf_cons (f : Function Op Lit Sig Val)
    (fs : List (Function Op Lit Sig Val)) :
    nodesOf (f :: fs) = f.nodes ++ nodesOf fs := by
  rw [nodesOf]

theorem mem_nodesOf {g : Function Op Lit Sig Val}
    {fs : List (Function Op Lit Sig Val)} :
    g ∈ nodesOf fs ↔ ∃ f ∈ fs, g ∈ f.nodes := by
  induction fs with
  | nil =>
      rw [nodesOf]
      simp
  | cons f fs ih => simp [nodesOf_cons, ih]

mutual
/-- A definition inside a definition inside a function is inside the
function. -/
theorem nodes_subset (g : Function Op Lit Sig Val) :
    (f : Function Op Lit Sig Val) → g ∈ f.nodes → g.nodes ⊆ f.nodes
  | .mk op defs, h => by
      rw [Function.nodes] at h
      rcases List.mem_cons.mp h with rfl | h
      · exact fun _ hx => hx
      · intro x hx
        rw [Function.nodes]
        exact List.mem_cons_of_mem _ (nodesOf_subset g defs h hx)

theorem nodesOf_subset (g : Function Op Lit Sig Val) :
    (fs : List (Function Op Lit Sig Val)) → g ∈ nodesOf fs →
      g.nodes ⊆ nodesOf fs
  | [], h => by
      rw [nodesOf] at h
      cases h
  | f :: fs, h => by
      rw [nodesOf_cons] at h ⊢
      intro x hx
      rcases List.mem_append.mp h with h | h
      · exact List.mem_append_left _ (nodes_subset g f h hx)
      · exact List.mem_append_right _ (nodesOf_subset g fs h hx)
end

-- =================================================================== copies

/-- The table and the address that a function is looked up under. -/
def SameKey (f g : Function Op Lit Sig Val) : Prop :=
  f.op.closure = g.op.closure ∧ Memo.keyOf f.op = Memo.keyOf g.op

/-- Functions under one key have one code. -/
def OneCode (fs : List (Function Op Lit Sig Val)) : Prop :=
  ∀ f ∈ fs, ∀ g ∈ fs, SameKey f g → f.code = g.code

/-- What the tables have for a function is a copy of it. -/
def SoundFor (fs : List (Function Op Lit Sig Val))
    (m : Memo Op Lit Sig Val) : Prop :=
  ∀ f ∈ fs, ∀ r, m.find f.op = some r →
    ∃ copy, r = .function copy ∧ copy.code = f.code

section Copies

variable {fs : List (Function Op Lit Sig Val)} {m : Memo Op Lit Sig Val}

theorem find_remember {f g : Function Op Lit Sig Val}
    {copy : Function Op Lit Sig Val} {r : Resolved Op Lit Sig Val}
    (h : (m.remember f.op copy).find g.op = some r) :
    m.find g.op = some r ∨ SameKey f g ∧ r = .function copy := by
  unfold Memo.remember at h
  split at h
  case isTrue hf =>
    cases hold : m.closureBaseOpArrays (Memo.keyOf f.op) with
    | some _ =>
        simp only [hold] at h
        exact Or.inl h
    | none =>
        simp only [hold] at h
        unfold Memo.find at h ⊢
        split at h
        case isTrue hg =>
          rw [if_pos hg]
          by_cases hkey : Memo.keyOf g.op = Memo.keyOf f.op
          · simp only [hkey, Function.update_self] at h
            exact Or.inr ⟨⟨hf.trans hg.symm, hkey.symm⟩,
              (Option.some.inj h).symm⟩
          · simp only [Function.update_of_ne hkey] at h
            exact Or.inl h
        case isFalse hg =>
          rw [if_neg hg]
          exact Or.inl h
  case isFalse hf =>
    unfold Memo.find at h ⊢
    split at h
    case isTrue hg =>
      rw [if_pos hg]
      exact Or.inl h
    case isFalse hg =>
      rw [if_neg hg]
      by_cases hkey : Memo.keyOf g.op = Memo.keyOf f.op
      · simp only [hkey, Function.update_self] at h
        refine Or.inr ⟨⟨?_, hkey.symm⟩, (Option.some.inj h).symm⟩
        rw [Bool.eq_false_iff.mpr hf, Bool.eq_false_iff.mpr hg]
      · simp only [Function.update_of_ne hkey] at h
        exact Or.inl h

theorem SoundFor.remember (hs : SoundFor fs m) (hone : OneCode fs)
    {f copy : Function Op Lit Sig Val} (hf : f ∈ fs)
    (hcopy : copy.code = f.code) : SoundFor fs (m.remember f.op copy) := by
  intro g hg r hr
  rcases find_remember hr with hr | ⟨hkey, rfl⟩
  · exact hs g hg r hr
  · exact ⟨copy, rfl, hcopy.trans (hone f hf g hg hkey)⟩

/-- Only the tables matter. -/
theorem SoundFor.arena (hs : SoundFor fs m) (a : Addr) :
    SoundFor fs { m with arena := a } := hs

mutual
/-- A copy has the code of what it is a copy of, and leaves the tables
sound. -/
theorem copyFunctionEx_sound (hone : OneCode fs) :
    (f : Function Op Lit Sig Val) → (m : Memo Op Lit Sig Val) →
      (copyStatics : Bool) → f.nodes ⊆ fs → SoundFor fs m →
        ∃ m' copy, m.copyFunctionEx copyStatics f = some (m', copy)
          ∧ copy.code = f.code ∧ SoundFor fs m'
  | .mk op defs, m, copyStatics, hsub, hs => by
      have hmem : Function.mk op defs ∈ fs :=
        hsub (Function.self_mem_nodes _)
      rw [Memo.copyFunctionEx]
      split
      case isTrue himm => exact ⟨m, _, rfl, rfl, hs⟩
      case isFalse himm =>
        cases hfind : m.find op with
        | some r =>
            obtain ⟨copy, rfl, hcode⟩ := hs _ hmem r hfind
            exact ⟨m, copy, rfl, hcode, hs⟩
        | none =>
            simp only []
            split
            case isTrue huser =>
              have hdefs : nodesOf defs ⊆ fs := by
                intro x hx
                refine hsub ?_
                rw [nodes]
                exact List.mem_cons_of_mem _ hx
              obtain ⟨m', copies, hcopies, hcodes, hs'⟩ :=
                copyDynamicFuncDefs_sound hone defs m hdefs hs
              rw [hcopies]
              have hcode : (Function.mk
                  (m'.copyOpArray copyStatics op).2 copies).code
                    = (Function.mk op defs).code := by
                rw [Function.code, Function.code, hcodes]
                rfl
              exact ⟨_, _, rfl, hcode, (hs'.arena _).remember hone hmem hcode⟩
            case isFalse huser =>
              have hcode : ∀ op', (op' = (m.copyOpArray copyStatics op).2
                  ∨ op' = (m.copyInternalFunction op).2) →
                  (Function.mk op' defs).code = (Function.mk op defs).code := by
                rintro op' (rfl | rfl)
                · rw [Function.code, Function.code]
                  rfl
                · rw [Function.code, Function.code]
                  rfl
              cases op.user with
              | true =>
                  have hc := hcode _ (Or.inl rfl)
                  exact ⟨_, _, rfl, hc, (hs.arena _).remember hone hmem hc⟩
              | false =>
                  have hc := hcode _ (Or.inr rfl)
                  exact ⟨_, _, rfl, hc, (hs.arena _).remember hone hmem hc⟩

theorem copyDynamicFuncDefs_sound (hone : OneCode fs) :
    (defs : List (Function Op Lit Sig Val)) → (m : Memo Op Lit Sig Val) →
      nodesOf defs ⊆ fs → SoundFor fs m →
        ∃ m' copies, m.copyDynamicFuncDefs defs = some (m', copies)
          ∧ codes copies = codes defs ∧ SoundFor fs m'
  | [], m, _, hs => by
      rw [Memo.copyDynamicFuncDefs]
      exact ⟨m, [], rfl, rfl, hs⟩
  | f :: defs, m, hsub, hs => by
      rw [nodesOf_cons] at hsub
      obtain ⟨m₁, copy, hcopy, hcode, hs₁⟩ := copyFunctionEx_sound hone f m
        true (fun x hx => hsub (List.mem_append_left _ hx)) hs
      obtain ⟨m₂, copies, hcopies, hcodes, hs₂⟩ :=
        copyDynamicFuncDefs_sound hone defs m₁
          (fun x hx => hsub (List.mem_append_right _ hx)) hs₁
      rw [Memo.copyDynamicFuncDefs, hcopy]
      simp only [Option.bind_some, hcopies, Option.map_some]
      refine ⟨m₂, copy :: copies, rfl, ?_, hs₂⟩
      rw [codes, codes, hcode, hcodes]
end

end Copies

-- ==================================================================== steps

theorem Compatible.code_eq {f g : Function Op Lit Sig Val}
    (h : Compatible f g) (hkey : SameKey f g) : f.code = g.code := by
  obtain ⟨hcl, hkey⟩ := hkey
  unfold Memo.keyOf at hkey
  cases hf : f.op.closure with
  | true =>
      have hg : g.op.closure = true := hcl.symm.trans hf
      rw [if_pos hf, if_pos hg] at hkey
      exact h.opcodes hf hg hkey
  | false =>
      have hg : g.op.closure = false := hcl.symm.trans hf
      rw [hf, hg, if_neg Bool.false_ne_true, if_neg Bool.false_ne_true] at hkey
      rw [h.addr hkey]

theorem find_of_sameKey {m : Memo Op Lit Sig Val}
    {f g : Function Op Lit Sig Val} (h : SameKey f g) :
    m.find f.op = m.find g.op := by
  unfold Memo.find
  rw [h.1, h.2]

/-- Live memory is as the allocator promises, and the tables have copies of
what is live. -/
structure Sound (s : State Op Lit Sig Val) : Prop where
  compatible : ∀ f ∈ s.functions, ∀ g ∈ s.functions, Compatible f g
  memo : SoundFor s.functions s.memo

/-- Memory that a table has an entry for is not taken for a new function,
unless the function or the opcodes there are still live. -/
def NotReused (s : State Op Lit Sig Val) : Event Op Lit Sig Val → Prop
  | .create f => ∀ g ∈ f.nodes, (s.memo.find g.op).isSome = true →
      ∃ h ∈ s.functions, SameKey h g
  | _ => True

theorem sound_init : Sound (State.init : State Op Lit Sig Val) where
  compatible f hf := by
    obtain ⟨_, h, -⟩ := mem_nodesOf.mp hf
    cases h
  memo f hf := by
    obtain ⟨_, h, -⟩ := mem_nodesOf.mp hf
    cases h

theorem Compatible.symm {f g : Function Op Lit Sig Val}
    (h : Compatible f g) : Compatible g f where
  addr heq := (h.addr heq.symm).symm
  opcodes hg hf heq := (h.opcodes hf hg heq.symm).symm

section Steps

variable {s s' : State Op Lit Sig Val}

theorem SoundFor.note {m : Memo Op Lit Sig Val}
    {fs : List (Function Op Lit Sig Val)} (hs : SoundFor fs m) {a : Addr}
    (hfree : ∀ f ∈ fs, f.op.addr ≠ a) (r : Resolved Op Lit Sig Val) :
    SoundFor fs (m.note a r) := by
  intro f hf r' hr'
  refine hs f hf r' ?_
  rw [← hr']
  unfold Memo.find Memo.note Memo.keyOf
  cases f.op.closure with
  | true => rfl
  | false =>
      simp only [Bool.false_eq_true, if_false]
      rw [Function.update_of_ne (hfree f hf)]

theorem SoundFor.forget {m : Memo Op Lit Sig Val}
    {fs : List (Function Op Lit Sig Val)} (hs : SoundFor fs m) (a : Addr) :
    SoundFor fs (m.forget a) := by
  intro f hf r hr
  refine hs f hf r ?_
  unfold Memo.find Memo.forget at hr
  unfold Memo.find
  split at hr
  case isTrue hcl => rwa [if_pos hcl]
  case isFalse hcl =>
    rw [if_neg hcl]
    by_cases hkey : Memo.keyOf f.op = a
    · simp only [hkey, Function.update_self] at hr
      cases hr
    · simp only [Function.update_of_ne hkey] at hr
      exact hr

theorem Sound.create (hs : Sound s) {f : Function Op Lit Sig Val}
    (hfree : ∀ g ∈ f.nodes, ∀ h ∈ f.nodes ++ s.functions, Compatible g h)
    (hnew : NotReused s (.create f)) :
    Sound { s with live := f :: s.live } := by
  have hfs : State.functions { s with live := f :: s.live }
      = f.nodes ++ s.functions := nodesOf_cons f s.live
  constructor
  case compatible =>
    rw [hfs]
    intro g hg h hh
    rcases List.mem_append.mp hg with hg' | hg'
    · exact hfree g hg' h hh
    · rcases List.mem_append.mp hh with hh' | hh'
      · exact (hfree h hh' g hg).symm
      · exact hs.compatible g hg' h hh'
  case memo =>
    rw [hfs]
    intro g hg r hr
    rcases List.mem_append.mp hg with hg | hg
    · -- the entry is of a function that is live already
      obtain ⟨h, hh, hkey⟩ := hnew g hg (Option.isSome_iff_exists.mpr ⟨r, hr⟩)
      obtain ⟨copy, rfl, hcode⟩ := hs.memo h hh r
        ((find_of_sameKey hkey).trans hr)
      have hgh := (hfree g hg h (List.mem_append_right _ hh)).symm
      exact ⟨copy, rfl, hcode.trans (hgh.code_eq hkey)⟩
    · exact hs.memo g hg r hr

theorem Sound.destroy (hs : Sound s)
    {live : List (Function Op Lit Sig Val)} (hsub : live ⊆ s.live) :
    Sound { s with live := live } := by
  have hfs : nodesOf live ⊆ nodesOf s.live := by
    intro g hg
    obtain ⟨f, hf, hg⟩ := mem_nodesOf.mp hg
    exact mem_nodesOf.mpr ⟨f, hsub hf, hg⟩
  exact ⟨fun f hf g hg => hs.compatible f (hfs hf) g (hfs hg),
    fun f hf => hs.memo f (hfs hf)⟩

theorem Sound.copies (hs : Sound s) {f : Function Op Lit Sig Val}
    (hf : f ∈ s.functions) (copyStatics : Bool) :
    ∃ m copy, s.memo.copyFunctionEx copyStatics f = some (m, copy)
      ∧ copy.code = f.code ∧ SoundFor s.functions m :=
  copyFunctionEx_sound
    (fun f hf g hg hkey => (hs.compatible f hf g hg).code_eq hkey)
    f s.memo copyStatics (nodesOf_subset f s.live hf) hs.memo

theorem Sound.step (hs : Sound s) {e : Event Op Lit Sig Val}
    (h : Step s e s') (hnew : NotReused s e) : Sound s' := by
  cases h with
  | create hfree => exact hs.create hfree hnew
  | destroy hsub => exact hs.destroy hsub
  | copy hlive hcopy =>
      obtain ⟨m, copy, hm, -, hsound⟩ := hs.copies hlive _
      rw [hm] at hcopy
      obtain ⟨rfl, rfl⟩ := Prod.mk.inj (Option.some.inj hcopy)
      exact ⟨hs.compatible, hsound⟩
  | connect hfree => exact ⟨hs.compatible, hs.memo.note hfree _⟩
  | disconnect => exact ⟨hs.compatible, hs.memo.forget _⟩
  | copyPropertyInfo hfree => exact ⟨hs.compatible, hs.memo.note hfree _⟩
  | newRequest =>
      refine ⟨hs.compatible, fun f _ r hr => ?_⟩
      unfold Memo.find at hr
      split at hr <;> cases hr

theorem Sound.run (hs : Sound s) {es : List (Event Op Lit Sig Val)}
    (h : Run NotReused s es s') : Sound s' := by
  induction h with
  | nil => exact hs
  | cons hok h _ ih => exact ih (hs.step h hok)

end Steps

/-- In every history in which memory that a table has an entry for is not
taken again, every copy has the code of its source at the time of the
call. -/
theorem function_copies_sound (s : State Op Lit Sig Val)
    (es : List (Event Op Lit Sig Val)) (h : Run NotReused .init es s)
    (f : Function Op Lit Sig Val) (hf : f ∈ s.functions)
    (copyStatics : Bool) :
    ∃ m copy, s.memo.copyFunctionEx copyStatics f = some (m, copy)
      ∧ copy.code = f.code := by
  obtain ⟨m, copy, hcopy, hcode, -⟩ := (sound_init.run h).copies hf copyStatics
  exact ⟨m, copy, hcopy, hcode⟩

-- ============================================================ taken again

/-- A closure without definitions inside it. -/
def leaf (addr opcodesAddr opcode : Nat) : Function Nat Nat Nat Nat :=
  .mk { addr, immutable := false, closure := true, user := true
        shared := false, opcodesAddr, opcodes := [opcode], literals := []
        signature := 0, staticVariables := none } []

theorem nodes_leaf (addr opcodesAddr opcode : Nat) :
    (leaf addr opcodesAddr opcode).nodes
      = [leaf addr opcodesAddr opcode] := by
  unfold leaf
  rw [nodes, nodesOf]

theorem Step.createLeaf {s : State Nat Nat Nat Nat} (hempty : s.live = [])
    (addr opcodesAddr opcode : Nat) :
    Step s (.create (leaf addr opcodesAddr opcode))
      { s with live := [leaf addr opcodesAddr opcode] } := by
  have hstep := Step.create (s := s) (f := leaf addr opcodesAddr opcode) (by
    intro g hg h hh
    unfold State.functions at hh
    rw [hempty, nodes_leaf, nodesOf, List.append_nil,
      List.mem_singleton] at hh
    rw [nodes_leaf, List.mem_singleton] at hg
    rw [hg, hh]
    exact ⟨fun _ => rfl, fun _ _ _ => rfl⟩)
  rwa [hempty] at hstep

theorem functions_leaf (addr opcodesAddr opcode : Nat)
    (m : Memo Nat Nat Nat Nat) :
    State.functions { live := [leaf addr opcodesAddr opcode], memo := m }
      = [leaf addr opcodesAddr opcode] := by
  unfold State.functions
  rw [nodesOf_cons, nodes_leaf, nodesOf, List.append_nil]

theorem leaf_mem_functions (addr opcodesAddr opcode : Nat)
    (m : Memo Nat Nat Nat Nat) :
    leaf addr opcodesAddr opcode ∈ State.functions
      { live := [leaf addr opcodesAddr opcode], memo := m } := by
  rw [functions_leaf]
  exact List.mem_cons_self

/-- The destination's tables once the first closure has been copied. -/
def firstCopied : Memo Nat Nat Nat Nat where
  resolve _ := none
  closureBaseOpArrays := Function.update (fun _ => none) 10 (some (leaf 0 1 7))
  arena := 2

theorem copy_first : (Memo.init : Memo Nat Nat Nat Nat).copyFunctionEx false
    (leaf 1 10 7) = some (firstCopied, leaf 0 1 7) := rfl

/-- A closure is copied and destroyed, and the next one takes the memory of
its object. -/
theorem run_twoClosures
    {ok : State Nat Nat Nat Nat → Event Nat Nat Nat Nat → Prop}
    (opcodesAddr : Nat) (hfirst : ok .init (.create (leaf 1 10 7)))
    (hcopy : ∀ s f b, ok s (.copy f b)) (hdestroy : ∀ s l, ok s (.destroy l))
    (hsecond : ok ⟨[], firstCopied⟩ (.create (leaf 1 opcodesAddr 8))) :
    Run ok .init [.create (leaf 1 10 7), .copy (leaf 1 10 7) false,
      .destroy [], .create (leaf 1 opcodesAddr 8)]
        ⟨[leaf 1 opcodesAddr 8], firstCopied⟩ := by
  refine .cons hfirst (Step.createLeaf rfl 1 10 7) ?_
  refine .cons (hcopy _ _ _) (Step.copy (leaf_mem_functions ..) copy_first) ?_
  refine .cons (hdestroy _ _) (Step.destroy (List.nil_subset _)) ?_
  exact .cons hsecond (Step.createLeaf rfl 1 opcodesAddr 8) .nil

theorem notReused_leaf {s : State Nat Nat Nat Nat}
    {addr opcodesAddr opcode : Nat}
    (hnone : s.memo.closureBaseOpArrays opcodesAddr = none) :
    NotReused s (.create (leaf addr opcodesAddr opcode)) := by
  intro g hg hsome
  rw [nodes_leaf, List.mem_singleton] at hg
  subst hg
  change ((s.memo.closureBaseOpArrays opcodesAddr).map _).isSome = _ at hsome
  rw [hnone] at hsome
  cases hsome

/-- The second closure has opcodes elsewhere. -/
theorem function_copies_sound_twoClosures :
    ∃ s, Run NotReused .init [.create (leaf 1 10 7),
        .copy (leaf 1 10 7) false, .destroy [], .create (leaf 1 20 8)] s
      ∧ ∃ m copy, s.memo.copyFunctionEx false (leaf 1 20 8) = some (m, copy)
        ∧ copy.code = (leaf 1 20 8).code := by
  have hrun := run_twoClosures 20 (notReused_leaf (s := .init) rfl)
    (fun _ _ _ => trivial) (fun _ _ => trivial)
    (notReused_leaf (s := ⟨[], firstCopied⟩) rfl)
  exact ⟨_, hrun,
    function_copies_sound _ _ hrun _ (leaf_mem_functions ..) false⟩

/-- The second closure takes the memory of the opcodes too, and what the
destination runs is the first. -/
theorem function_copies_unsound :
    ∃ s, Run (fun _ _ => True) .init [.create (leaf 1 10 7),
        .copy (leaf 1 10 7) false, .destroy [], .create (leaf 1 10 8)] s
      ∧ leaf 1 10 8 ∈ s.functions
      ∧ ∃ m copy, s.memo.copyFunctionEx false (leaf 1 10 8) = some (m, copy)
        ∧ copy.op.opcodes = [7] ∧ (leaf 1 10 8).op.opcodes = [8] :=
  ⟨⟨[leaf 1 10 8], firstCopied⟩,
    run_twoClosures 10 trivial (fun _ _ _ => trivial) (fun _ _ => trivial)
      trivial,
    leaf_mem_functions .., firstCopied, leaf 0 1 7, rfl, rfl, rfl⟩

-- ====================================================== function tables

section Tables

open Zend

variable {s : State Op Lit Sig Val}
  {t t' : HashTable (Function Op Lit Sig Val)}

/-- What the rounds over `es` make of the thread's table `t` under the
name `k`. -/
structure Inherited (es : List (Key × Function Op Lit Sig Val))
    (t t' : HashTable (Function Op Lit Sig Val)) (k : Key) : Prop where
  own : ∀ {g}, t.find k = some g → t'.find k = some g
  copied : t.find k = none → ∀ f, (k, f) ∈ es → f.op.user = true →
    ∃ copy, t'.find k = some copy ∧ copy.code = f.code
  absent : t.find k = none → (∀ f, (k, f) ∈ es → f.op.user = false) →
    t'.find k = none

theorem find_eq_none_of_not_contains {k : Key} (h : ¬ t.contains k = true) :
    t.find k = none := by
  cases hf : t.find k with
  | none => rfl
  | some g =>
      exact absurd (HashTable.contains_iff.mpr (List.mem_map.mpr
        ⟨_, HashTable.find_eq_some_iff.mp hf, rfl⟩)) h

theorem find_ne_none_of_contains {k : Key} (h : t.contains k = true) :
    t.find k ≠ none := by
  obtain ⟨e, he, rfl⟩ := List.mem_map.mp (HashTable.contains_iff.mp h)
  rw [HashTable.find_eq_some_iff.mpr he]
  exact Option.some_ne_none _

/-- A round that does nothing. -/
theorem Inherited.skip {es : List (Key × Function Op Lit Sig Val)}
    {e : Key × Function Op Lit Sig Val} {k : Key}
    (hskip : (!e.2.op.user || t.contains e.1) = true)
    (h : Inherited es t t' k) : Inherited (e :: es) t t' k where
  own := h.own
  copied hn f hf huser := by
    rcases List.mem_cons.mp hf with rfl | hf
    · rcases Bool.or_eq_true_iff.mp hskip with hu | hc
      · rw [huser] at hu
        cases hu
      · exact absurd hn (find_ne_none_of_contains hc)
    · exact h.copied hn f hf huser
  absent hn hall := h.absent hn fun f hf =>
    hall f (List.mem_cons_of_mem _ hf)

/-- A round that adds a copy; the name does not come again. -/
theorem Inherited.add {es : List (Key × Function Op Lit Sig Val)}
    {e : Key × Function Op Lit Sig Val} {k : Key}
    {copy : Function Op Lit Sig Val} (hnot : e.1 ∉ es.map Prod.fst)
    (hnew : t.find e.1 = none) (huser : e.2.op.user = true)
    (hcode : copy.code = e.2.code)
    (h : Inherited es (t.update true e.1 copy) t' k) :
    Inherited (e :: es) t t' k := by
  by_cases hk : k = e.1
  · subst hk
    have hfind := h.own (HashTable.find_update_self true t e.1 copy)
    refine ⟨fun hg => ?_, fun _ f hf _ => ?_, fun _ hall => ?_⟩
    · rw [hnew] at hg
      cases hg
    · rcases List.mem_cons.mp hf with heq | hf
      · exact ⟨copy, hfind, by rw [hcode, ← heq]⟩
      · exact absurd (List.mem_map.mpr ⟨_, hf, rfl⟩) hnot
    · have hfalse := hall e.2 List.mem_cons_self
      rw [huser] at hfalse
      cases hfalse
  · have hsame := HashTable.find_update_ne true t copy hk
    refine ⟨fun hg => h.own (hsame.trans hg), fun hn f hf hu => ?_,
      fun hn hall => h.absent (hsame.trans hn) fun f hf =>
        hall f (List.mem_cons_of_mem _ hf)⟩
    rcases List.mem_cons.mp hf with heq | hf
    · exact absurd (congrArg Prod.fst heq) hk
    · exact h.copied (hsame.trans hn) f hf hu

theorem prepareFunctions_rounds (hs : Sound s)
    (es : List (Key × Function Op Lit Sig Val)) :
    ∀ (m : Memo Op Lit Sig Val) (t : HashTable (Function Op Lit Sig Val)),
      (es.map Prod.fst).Nodup → (∀ e ∈ es, e.2 ∈ s.functions) →
      SoundFor s.functions m →
      ∃ m' t', es.foldlM prepareFunction (m, t) = some (m', t')
        ∧ SoundFor s.functions m' ∧ ∀ k, Inherited es t t' k := by
  induction es with
  | nil =>
      intro m t _ _ hm
      refine ⟨m, t, rfl, hm, fun k => ⟨fun h => h, fun _ f hf => ?_,
        fun h _ => h⟩⟩
      cases hf
  | cons e es ih =>
      intro m t hnd hlive hm
      obtain ⟨hnot, hnd⟩ := List.nodup_cons.mp hnd
      have hlive' := fun e' he' => hlive e' (List.mem_cons_of_mem _ he')
      by_cases hskip : (!e.2.op.user || t.contains e.1) = true
      · obtain ⟨m', t', hrun, hm', hall⟩ := ih m t hnd hlive' hm
        exact ⟨m', t', foldlM_cons_iff.mpr ⟨(m, t), if_pos hskip, hrun⟩, hm',
          fun k => (hall k).skip hskip⟩
      · -- the memo is sound for all live functions, not for this one only
        have hsm : Sound { s with memo := m } := ⟨hs.compatible, hm⟩
        obtain ⟨m₁, copy, hcopy, hcode, hm₁⟩ :=
          hsm.copies (hlive e List.mem_cons_self) true
        obtain ⟨m', t', hrun, hm', hall⟩ :=
          ih m₁ (t.update true e.1 copy) hnd hlive' hm₁
        obtain ⟨huser, hnew⟩ := not_or.mp fun h =>
          hskip (Bool.or_eq_true_iff.mpr h)
        have hround : prepareFunction (m, t) e
            = some (m₁, t.update true e.1 copy) := by
          unfold prepareFunction
          rw [if_neg hskip]
          exact congrArg (Option.map _) hcopy
        refine ⟨m', t', foldlM_cons_iff.mpr ⟨_, hround, hrun⟩, hm', fun k =>
          (hall k).add hnot (find_eq_none_of_not_contains hnew) ?_ hcode⟩
        simpa using huser

end Tables

open Zend in
/-- INHERIT_FUNCTIONS. In every history in which memory that a table of
the thread has an entry for is not taken again, and for every function
table of live functions: the loop ends, the thread keeps the functions it
has, every user function of the creator that it does not have is there
under its name, with the code it has on the creator, and nothing else is
new; and later copies are as sound as before. -/
theorem functions_inherited (s : State Op Lit Sig Val)
    (es : List (Event Op Lit Sig Val)) (h : Run NotReused .init es s)
    (creator child : HashTable (Function Op Lit Sig Val))
    (hlive : ∀ e ∈ creator.entries, e.2 ∈ s.functions) :
    ∃ m t, prepareFunctions creator (s.memo, child) = some (m, t)
      ∧ (∀ k g, child.find k = some g → t.find k = some g)
      ∧ (∀ k f, child.find k = none → creator.find k = some f →
        f.op.user = true → ∃ copy, t.find k = some copy ∧ copy.code = f.code)
      ∧ (∀ k, child.find k = none →
        (∀ f, creator.find k = some f → f.op.user = false) →
        t.find k = none)
      ∧ ∀ f ∈ s.functions, ∀ copyStatics,
        ∃ m' copy, m.copyFunctionEx copyStatics f = some (m', copy)
          ∧ copy.code = f.code := by
  have hs := sound_init.run h
  obtain ⟨m, t, hrun, hm, hall⟩ := prepareFunctions_rounds hs
    creator.entries s.memo child creator.nodup hlive hs.memo
  refine ⟨m, t, hrun, fun k g hg => (hall k).own hg,
    fun k f hn hf hu => (hall k).copied hn f
      (HashTable.find_eq_some_iff.mp hf) hu,
    fun k hn hint => (hall k).absent hn fun f hf =>
      hint f (HashTable.find_eq_some_iff.mpr hf),
    fun f hf copyStatics => ?_⟩
  have hsm : Sound { s with memo := m } := ⟨hs.compatible, hm⟩
  obtain ⟨m', copy, hcopy, hcode, -⟩ := hsm.copies hf copyStatics
  exact ⟨m', copy, hcopy, hcode⟩

/-- A function without definitions inside it. -/
def declared (addr opcodesAddr opcode : Nat) (user : Bool) :
    Function Nat Nat Nat Nat :=
  .mk { addr, immutable := false, closure := false, user
        shared := false, opcodesAddr, opcodes := [opcode], literals := []
        signature := 0, staticVariables := none } []

theorem nodes_declared (addr opcodesAddr opcode : Nat) (user : Bool) :
    (declared addr opcodesAddr opcode user).nodes
      = [declared addr opcodesAddr opcode user] := by
  unfold declared
  rw [nodes, nodesOf]

/-- The creator compiles a function before anything is copied. -/
theorem run_oneFunction :
    Run NotReused (State.init : State Nat Nat Nat Nat)
      [.create (declared 1 10 7 true)]
      ⟨[declared 1 10 7 true], .init⟩ := by
  refine .cons (fun g _ hsome => ?_) (.create fun g hg h hh => ?_) .nil
  · have hnone : (State.init : State Nat Nat Nat Nat).memo.find g.op = none := by
      change ite _ _ _ = _
      split <;> rfl
    rw [hnone] at hsome
    cases hsome
  · rw [show (State.init : State Nat Nat Nat Nat).functions = [] from rfl,
      List.append_nil, nodes_declared, List.mem_singleton] at hh
    rw [nodes_declared, List.mem_singleton] at hg
    rw [hg, hh]
    exact ⟨fun _ => rfl, fun _ _ _ => rfl⟩

open Zend in
/-- The function table of a thread with one function. -/
def tableWith (name : Key) (f : Function Nat Nat Nat Nat) :
    HashTable (Function Nat Nat Nat Nat) :=
  (HashTable.init 8).update true name f

open Zend in
/-- The thread has a function of its own, under another name. -/
theorem functions_inherited_oneFunction :
    let f := declared 1 10 7 true
    let own := declared 2 20 9 false
    ∃ m t, prepareFunctions (tableWith (.str [102]) f)
        (Memo.init, tableWith (.str [103]) own) = some (m, t)
      ∧ t.find (.str [103]) = some own
      ∧ (∃ copy, t.find (.str [102]) = some copy ∧ copy.code = f.code)
      ∧ t.find (.str [104]) = none := by
  intro f own
  obtain ⟨m, t, hrun, hown, hcopied, habsent, -⟩ :=
    functions_inherited _ _ run_oneFunction (tableWith (.str [102]) f)
      (tableWith (.str [103]) own) (by
        intro e he
        obtain rfl := List.mem_singleton.mp he
        unfold State.functions
        rw [nodesOf_cons, nodes_declared]
        exact List.mem_cons_self)
  refine ⟨m, t, hrun, hown _ _ rfl, hcopied _ f rfl rfl rfl,
    habsent _ rfl fun g hg => ?_⟩
  cases hg

end PmmpThread.Model.Functions
