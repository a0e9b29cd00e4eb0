/-
INHERIT_INI: the loop over the creator's directives gives every directive
of the thread what it would be given alone, since each name comes once
(`prepare_ini_exact`).
-/
import PmmpThread.Model.Ini
import PmmpThread.Zend.Foreach

namespace PmmpThread.Model.Ini

open Zend

variable {σ : Type} {creator : HashTable (Entry σ)} {p q : Directives σ}

-- ============================================================ one directive

theorem inherits_value {e₀ e₁ : Entry σ} {v : Bytes}
    (h : inherits e₀ e₁ = some v) :
    e₀.value = some v ∧ ∃ v₁, e₁.value = some v₁ ∧ cString v ≠ cString v₁ := by
  unfold inherits at h
  cases h0 : e₀.value with
  | none =>
      rw [h0] at h
      cases h
  | some v₀ =>
      cases h1 : e₁.value with
      | none =>
          rw [h0, h1] at h
          cases h
      | some v₁ =>
          simp only [h0, h1] at h
          split at h
          case isTrue => cases h
          case isFalse hne =>
            rw [← Option.some.inj h]
            exact ⟨rfl, v₁, rfl, hne⟩

@[simp] theorem value_alter (e : Entry σ) (v : Bytes) :
    (e.alter v).value = some v := by
  unfold Entry.alter
  split <;> rfl

@[simp] theorem modifiable_alter (e : Entry σ) (v : Bytes) :
    (e.alter v).modifiable = e.modifiable := by
  unfold Entry.alter
  split <;> rfl

@[simp] theorem onModify_alter (e : Entry σ) (v : Bytes) :
    (e.alter v).onModify = e.onModify := by
  unfold Entry.alter
  split <;> rfl

/-- What one round does to a directive. -/
theorem prepareDirective_find {e : Key × Entry σ}
    (h : prepareDirective p e = some q) (k : Key) :
    q.table.find k = if k = e.1
      then (p.table.find k).map fun e₁ => ((inherits e.2 e₁).map
        fun v => e₁.alter v).getD e₁
      else p.table.find k := by
  unfold prepareDirective at h
  cases hf : p.table.find e.1 with
  | none =>
      rw [hf] at h
      rw [← Option.some.inj h]
      split
      case isTrue hk => rw [hk, hf]; rfl
      case isFalse => rfl
  | some e₁ =>
      simp only [hf] at h
      cases hv : inherits e.2 e₁ with
      | none =>
          simp only [hv] at h
          rw [← Option.some.inj h]
          split
          case isTrue hk => rw [hk, hf, Option.map_some, hv]; rfl
          case isFalse => rfl
      | some v =>
          simp only [hv] at h
          obtain ⟨f, -, rfl⟩ := Option.map_eq_some_iff.mp h
          show (p.table.update true e.1 _).find k = _
          rw [HashTable.find_update]
          split
          case isTrue hk => rw [hk, hf, Option.map_some, hv]; rfl
          case isFalse => rfl

/-- A round cannot be made exactly if it changes a directive that has no
`on_modify`. -/
theorem prepareDirective_none {e : Key × Entry σ} :
    prepareDirective p e = none
      ↔ ∃ e₁, p.table.find e.1 = some e₁ ∧ (inherits e.2 e₁).isSome = true
        ∧ e₁.onModify = none := by
  unfold prepareDirective
  cases hf : p.table.find e.1 with
  | none =>
      refine iff_of_false (fun h => by cases h) ?_
      rintro ⟨e₁, h, -⟩
      cases h
  | some e₁ =>
      simp only []
      cases hv : inherits e.2 e₁ with
      | none =>
          refine iff_of_false (fun h => by cases h) ?_
          rintro ⟨e', he', h, -⟩
          rw [← Option.some.inj he', hv] at h
          cases h
      | some v =>
          simp only [Option.map_eq_none_iff]
          refine ⟨fun h => ⟨e₁, rfl, by rw [hv]; rfl, h⟩, ?_⟩
          rintro ⟨e', he', -, h⟩
          rw [Option.some.inj he']
          exact h

theorem restored_alter (e : Entry σ) (v : Bytes) :
    (e.alter v).restored = e.restored := by
  unfold Entry.alter Entry.restored
  by_cases h : e.modified = true
  · simp [h]
  · simp [h]

theorem changes_append (p : Directives σ) (es es' : List (Key × Entry σ)) :
    changes p (es ++ es') = changes p es ++ changes p es' :=
  List.filterMap_append

theorem firstChanges_append (p : Directives σ) (es es' : List (Key × Entry σ)) :
    firstChanges p (es ++ es') = firstChanges p es ++ firstChanges p es' := by
  unfold firstChanges
  rw [changes_append, List.map_append, List.filter_append]

/-- What one round does to the state and the list of changed directives. -/
theorem prepareDirective_state {e : Key × Entry σ} {c : Directives σ}
    (hsame : c.table.find e.1 = p.table.find e.1)
    (h : prepareDirective c e = some q) :
    q.state = (changes p [e]).foldl (notify p) c.state
      ∧ q.modified = c.modified ++ firstChanges p [e] := by
  unfold prepareDirective at h
  rw [hsame] at h
  cases hf : p.table.find e.1 with
  | none =>
      rw [hf] at h
      rw [← Option.some.inj h]
      simp [firstChanges, changes, hf]
  | some e₁ =>
      simp only [hf] at h
      cases hv : inherits e.2 e₁ with
      | none =>
          simp only [hv] at h
          rw [← Option.some.inj h]
          simp [firstChanges, changes, hf, hv]
      | some v =>
          simp only [hv] at h
          obtain ⟨f, hm, rfl⟩ := Option.map_eq_some_iff.mp h
          refine ⟨by simp [changes, notify, hf, hv, hm], ?_⟩
          by_cases hmod : e₁.modified = true
          · simp [firstChanges, changes, hf, hv, hmod]
          · simp [firstChanges, changes, hf, hv, hmod]

-- ================================================================= the loop

/-- What the rounds over `pre` make of the table. -/
def found (p : Directives σ) (pre : List (Key × Entry σ)) (k : Key) :
    Option (Entry σ) :=
  match pre.find? fun e => e.1 == k with
  | some e => (p.table.find k).map fun e₁ =>
      ((inherits e.2 e₁).map fun v => e₁.alter v).getD e₁
  | none => p.table.find k

theorem found_append {pre : List (Key × Entry σ)} {e : Key × Entry σ}
    (hnot : e.1 ∉ pre.map Prod.fst) (k : Key) :
    found p (pre ++ [e]) k = if k = e.1
      then (p.table.find k).map fun e₁ => ((inherits e.2 e₁).map
        fun v => e₁.alter v).getD e₁
      else found p pre k := by
  have hnone : pre.find? (fun e' => e'.1 == e.1) = none := by
    refine List.find?_eq_none.mpr fun e' he' h => hnot ?_
    exact List.mem_map.mpr ⟨e', he', eq_of_beq h⟩
  unfold found
  rw [List.find?_append]
  by_cases hk : k = e.1
  · rw [if_pos hk, hk, hnone, Option.none_or, List.find?_singleton,
      if_pos (beq_self_eq_true e.1)]
  · have hke : ¬ (e.1 == k) = true := fun h => hk (eq_of_beq h).symm
    rw [if_neg hk, List.find?_singleton, if_neg hke, Option.or_none]

theorem found_of_notMem {pre : List (Key × Entry σ)} {k : Key}
    (hnot : k ∉ pre.map Prod.fst) : found p pre k = p.table.find k := by
  unfold found
  rw [List.find?_eq_none.mpr]
  intro e he h
  exact hnot (List.mem_map.mpr ⟨e, he, eq_of_beq h⟩)

theorem rounds {pre : List (Key × Entry σ)} (hnd : (pre.map Prod.fst).Nodup)
    (h : pre.foldlM prepareDirective p = some q) :
    (∀ k, q.table.find k = found p pre k)
      ∧ q.state = (changes p pre).foldl (notify p) p.state
      ∧ q.modified = p.modified ++ firstChanges p pre := by
  refine foldlM_rounds (P := fun pre c =>
    (∀ k, c.table.find k = found p pre k)
      ∧ c.state = (changes p pre).foldl (notify p) p.state
      ∧ c.modified = p.modified ++ firstChanges p pre) pre
    ⟨fun k => rfl, rfl, (List.append_nil _).symm⟩ ?_ h
  rintro pre' e post c c' rfl - ⟨hfind, hstate, hmod⟩ hround
  rw [List.map_append, List.nodup_append] at hnd
  have hnot : e.1 ∉ pre'.map Prod.fst := fun hmem =>
    hnd.2.2 e.1 hmem e.1 List.mem_cons_self rfl
  have hsame : c.table.find e.1 = p.table.find e.1 := by
    rw [hfind, found_of_notMem hnot]
  obtain ⟨hstate', hmod'⟩ := prepareDirective_state hsame hround
  refine ⟨fun k => ?_, ?_, ?_⟩
  · rw [prepareDirective_find hround, found_append hnot]
    by_cases hk : k = e.1
    · rw [if_pos hk, if_pos hk, hk, hsame]
    · rw [if_neg hk, if_neg hk, hfind]
  · rw [hstate', hstate, changes_append, List.foldl_append]
  · rw [hmod', hmod, firstChanges_append, List.append_assoc]

/-- The loop meets a null `on_modify` exactly if a directive that changes
has none. -/
theorem prepareIni_none : prepareIni creator p = none
    ↔ ∃ k e₀ e₁, creator.find k = some e₀ ∧ p.table.find k = some e₁
      ∧ (inherits e₀ e₁).isSome = true ∧ e₁.onModify = none := by
  have hround : ∀ {pre e post c}, creator.entries = pre ++ e :: post →
      pre.foldlM prepareDirective p = some c →
      c.table.find e.1 = p.table.find e.1 := by
    intro pre e post c hl hc
    have hnd : (creator.entries.map Prod.fst).Nodup := creator.nodup
    rw [hl, List.map_append, List.nodup_append] at hnd
    rw [(rounds hnd.1 hc).1, found_of_notMem]
    exact fun hmem => hnd.2.2 e.1 hmem e.1 List.mem_cons_self rfl
  constructor
  · intro hnone
    by_contra hno
    have hsome : (prepareIni creator p).isSome = true := by
      refine foldlM_isSome_iff.mpr fun pre e post hl c hc => ?_
      rw [Option.isSome_iff_ne_none]
      intro hn
      obtain ⟨e₁, hf, hv, hm⟩ := prepareDirective_none.mp hn
      have he : (e.1, e.2) ∈ creator.entries := by
        rw [hl]
        exact List.mem_append_right _ List.mem_cons_self
      exact hno ⟨e.1, e.2, e₁, HashTable.find_eq_some_iff.mpr he,
        (hround hl hc).symm.trans hf, hv, hm⟩
    rw [hnone] at hsome
    cases hsome
  · rintro ⟨k, e₀, e₁, hf, hf₁, hv, hm⟩
    obtain ⟨pre, post, hl⟩ :=
      List.append_of_mem (HashTable.find_eq_some_iff.mp hf)
    by_contra hsome
    obtain ⟨q, hq⟩ := Option.ne_none_iff_exists'.mp hsome
    unfold prepareIni at hq
    rw [hl] at hq
    obtain ⟨c, hc, hq⟩ := foldlM_append_iff.mp hq
    obtain ⟨c', hc', -⟩ := foldlM_cons_iff.mp hq
    have hnone := prepareDirective_none.mpr
      ⟨e₁, (hround hl hc).trans hf₁, hv, hm⟩
    rw [hnone] at hc'
    cases hc'

theorem found_entries (k : Key) :
    found p creator.entries k = (p.table.find k).map fun e₁ =>
      (((creator.find k).bind (inherits · e₁)).map
        fun v => e₁.alter v).getD e₁ := by
  unfold found
  cases hf : creator.entries.find? fun e => e.1 == k with
  | none =>
      have hnone : creator.find k = none := by
        cases hk : creator.find k with
        | none => rfl
        | some e₀ =>
            have h := List.find?_eq_none.mp hf (k, e₀)
              (HashTable.find_eq_some_iff.mp hk)
            exact absurd (beq_self_eq_true k) h
      rw [hnone]
      cases p.table.find k <;> rfl
  | some e =>
      have hbeq : (e.1 == k) = true :=
        List.find?_some (p := fun e : Key × Entry σ => e.1 == k) hf
      have hk : e.1 = k := eq_of_beq hbeq
      have he : creator.find k = some e.2 := by
        rw [← hk]
        exact HashTable.find_eq_some_iff.mpr (List.mem_of_find?_eq_some hf)
      rw [he]
      rfl

/-- INHERIT_INI, for all tables of the creator and of the thread. Starting
the thread calls through a null pointer exactly if a directive without
`on_modify` has a value on both threads and they differ. Otherwise every
directive that has a value on both threads ends with the creator's, and
it stays as modifiable as it was and goes back to what it would have gone
back to; any other directive is left alone; `on_modify` has been called
once for each change, in the creator's order, and the directives to go
back are those that were and those that changed for the first time. -/
theorem prepare_ini_exact (creator : HashTable (Entry σ))
    (p : Directives σ) :
    (prepareIni creator p = none
      ↔ ∃ k e₀ e₁, creator.find k = some e₀ ∧ p.table.find k = some e₁
        ∧ (inherits e₀ e₁).isSome = true ∧ e₁.onModify = none)
    ∧ ∀ q, prepareIni creator p = some q →
      (∀ k e₀ e₁ v₀ v₁, creator.find k = some e₀ → p.table.find k = some e₁ →
        e₀.value = some v₀ → e₁.value = some v₁ →
        ∃ e v, q.table.find k = some e ∧ e.value = some v
          ∧ cString v = cString v₀ ∧ e.modifiable = e₁.modifiable
          ∧ e.restored = e₁.restored)
      ∧ (∀ k, (∀ e₀ e₁, creator.find k = some e₀ →
          p.table.find k = some e₁ → e₀.value = none ∨ e₁.value = none) →
        q.table.find k = p.table.find k)
      ∧ q.state = (changes p creator.entries).foldl (notify p) p.state
      ∧ q.modified = p.modified ++ firstChanges p creator.entries := by
  refine ⟨prepareIni_none, fun q hq => ?_⟩
  have hnd : (creator.entries.map Prod.fst).Nodup := creator.nodup
  obtain ⟨hfind, hrest⟩ := rounds hnd hq
  refine ⟨fun k e₀ e₁ v₀ v₁ h₀ h₁ hv₀ hv₁ => ?_, fun k hk => ?_, hrest⟩
  · rw [hfind, found_entries, h₁, Option.map_some, h₀, Option.bind_some]
    cases hv : inherits e₀ e₁ with
    | some v =>
        obtain ⟨hval, -⟩ := inherits_value hv
        rw [hv₀] at hval
        rw [← Option.some.inj hval]
        exact ⟨_, v₀, rfl, value_alter e₁ v₀, rfl, modifiable_alter e₁ v₀,
          restored_alter e₁ v₀⟩
    | none =>
        refine ⟨e₁, v₁, rfl, hv₁, ?_, rfl, rfl⟩
        unfold inherits at hv
        rw [hv₀, hv₁] at hv
        simp only [] at hv
        split at hv
        case isTrue heq => exact heq.symm
        case isFalse => cases hv
  · rw [hfind, found_entries]
    cases h₁ : p.table.find k with
    | none => rfl
    | some e₁ =>
        cases h₀ : creator.find k with
        | none => rfl
        | some e₀ =>
            rw [Option.map_some, Option.bind_some]
            cases hv : inherits e₀ e₁ with
            | none => rfl
            | some v =>
                obtain ⟨hval, v₁, hval₁, -⟩ := inherits_value hv
                rcases hk e₀ e₁ h₀ h₁ with hn | hn
                · rw [hval] at hn
                  cases hn
                · rw [hval₁] at hn
                  cases hn

/-- A directive that records in the state the values it was given. -/
def recording (v : Bytes) : Entry (List Bytes) :=
  ⟨some v, none, 7, 0, false, some fun v s => s ++ [v]⟩

/-- One that has no `on_modify`. -/
def silent (v : Bytes) : Entry (List Bytes) :=
  ⟨some v, none, 7, 0, false, none⟩

/-- A table of two directives. -/
def twoDirectives (a b : Entry (List Bytes)) :
    HashTable (Entry (List Bytes)) :=
  ((HashTable.init 8).update true (.str [97]) a).update true (.str [98]) b

/-- Where the creator has changed the first directive only, the thread
gets it; where it has changed the second, which has no `on_modify`, the
thread cannot start. -/
theorem prepare_ini_exact_twoDirectives :
    (∃ q e v, prepareIni (twoDirectives (recording [49]) (silent [48]))
        ⟨twoDirectives (recording [48]) (silent [48]), [], []⟩ = some q
      ∧ q.table.find (.str [97]) = some e ∧ e.value = some v
      ∧ cString v = [49] ∧ q.state = [[49]])
    ∧ prepareIni (twoDirectives (recording [48]) (silent [49]))
        ⟨twoDirectives (recording [48]) (silent [48]), [], []⟩ = none := by
  have hfind : ∀ a b : Entry (List Bytes),
      (twoDirectives a b).find (.str [97]) = some a
        ∧ (twoDirectives a b).find (.str [98]) = some b := by
    intro a b
    unfold twoDirectives
    refine ⟨?_, HashTable.find_update_self _ _ _ _⟩
    rw [HashTable.find_update_ne _ _ _ (by decide)]
    exact HashTable.find_update_self _ _ _ _
  constructor
  · obtain ⟨q, hq⟩ : ∃ q, prepareIni
        (twoDirectives (recording [49]) (silent [48]))
        ⟨twoDirectives (recording [48]) (silent [48]), [], []⟩ = some q :=
      ⟨_, rfl⟩
    obtain ⟨hval, -, hstate, -⟩ := (prepare_ini_exact _ _).2 q hq
    obtain ⟨e, v, he, hv, hc, -⟩ := hval (.str [97]) (recording [49])
      (recording [48]) [49] [48] (hfind _ _).1 (hfind _ _).1 rfl rfl
    exact ⟨q, e, v, hq, he, hv, hc, hstate⟩
  · exact (prepare_ini_exact _ _).1.mpr ⟨.str [98], silent [49], silent [48],
      (hfind _ _).2, (hfind _ _).2, rfl, rfl⟩

end PmmpThread.Model.Ini
