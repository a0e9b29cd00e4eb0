/-
The serial numbers of ts_objs: no two have the same, and every reference
in a shared table names an object that was made before, its number is
below the next one. So a store of a new object is never the store that was
there.
-/
import PmmpThread.Proofs.Addresses

namespace PmmpThread.Model.World

open Zend

variable {E : Engine} {t : ThreadId} {w w' : World}

-- ========================================================== serial numbers

/-- `w'` has no ts_objs that `w` does not have. -/
def NoNewShared (w w' : World) : Prop :=
  w'.births = w.births ∧ ∀ s o', w'.shared.get s = some o' →
    ∃ o, w.shared.get s = some o ∧ o.birth = o'.birth

/-- No two ts_objs have the same serial number. -/
def Numbered (w : World) : Prop :=
  ∀ s o, w.shared.get s = some o → o.birth < w.births
    ∧ ∀ s' o', w.shared.get s' = some o' → o'.birth = o.birth → s' = s

theorem NoNewShared.refl (w : World) : NoNewShared w w :=
  ⟨rfl, fun _ o h => ⟨o, h, rfl⟩⟩

theorem NoNewShared.trans {u : World} (h : NoNewShared w u)
    (h' : NoNewShared u w') : NoNewShared w w' := by
  refine ⟨h'.1.trans h.1, fun s o' ho' => ?_⟩
  obtain ⟨o₁, ho₁, hb₁⟩ := h'.2 s o' ho'
  obtain ⟨o, ho, hb⟩ := h.2 s o₁ ho₁
  exact ⟨o, ho, hb.trans hb₁⟩

/-- A change of connections only. -/
theorem noNewShared_of_props (hext : Extends w w')
    (hp : ∀ s, (w'.shared.get s).map TsObj.props
      = (w.shared.get s).map TsObj.props) : NoNewShared w w' := by
  refine ⟨hext.births, fun s o' ho' => ?_⟩
  have hs := hp s
  rw [ho'] at hs
  cases ho : w.shared.get s with
  | none =>
      rw [ho] at hs
      cases hs
  | some o =>
      obtain ⟨n, hn⟩ := hext.shared ho
      rw [ho'] at hn
      rw [Option.some.inj hn]
      exact ⟨o, rfl, rfl⟩

/-- Connecting makes no shared object. -/
theorem Grow.noNewShared (h : Grow E t w w') : NoNewShared w w' :=
  noNewShared_of_props h.extends h.props

theorem noNewShared_setStore (w : World) (s : TsAddr) (p : Store Storage) :
    NoNewShared w (w.setStore s p) := by
  refine ⟨rfl, fun s' o' ho' => ?_⟩
  change (w.shared.modify s _).get s' = some o' at ho'
  rw [Heap.get_modify] at ho'
  split at ho'
  · obtain ⟨o, ho, rfl⟩ := Option.map_eq_some_iff.mp ho'
    exact ⟨o, ho, rfl⟩
  · exact ⟨o', ho', rfl⟩

/-- Neither does a change of one store with the local table before it. -/
theorem noNewShared_commit (w : World) (c : Addr) (s : TsAddr)
    (r : Local × Store Storage) : NoNewShared w (w.commit c s r) :=
  noNewShared_setStore w s r.2

/-- Without a new shared object the numbers stay below the counter. -/
theorem Numbered.mono (h : Numbered w) (hn : NoNewShared w w') :
    Numbered w' := by
  intro s o' ho'
  obtain ⟨o, ho, hb⟩ := hn.2 s o' ho'
  obtain ⟨hlt, huniq⟩ := h s o ho
  refine ⟨by rw [hn.1, ← hb]; exact hlt, fun s₁ o₁' ho₁' heq => ?_⟩
  obtain ⟨o₁, ho₁, hb₁⟩ := hn.2 s₁ o₁' ho₁'
  exact huniq s₁ o₁ ho₁ (by rw [hb₁, heq, hb])

/-- A construction uses the counter up. -/
theorem Numbered.tsObjectCtor (h : Numbered w) (a : Addr) (scope : Scope) :
    Numbered (w.tsObjectCtor E t a scope) := by
  have hold : ∀ {s o}, (w.tsObjectCtor E t a scope).shared.get s = some o →
      (s = w.shared.next E.shared ∧ o.birth = w.births)
        ∨ w.shared.get s = some o := by
    intro s o ho
    change (w.shared.place _ _).get s = some o at ho
    rw [Heap.get_place] at ho
    split at ho
    case isTrue hs =>
      rw [← Option.some.inj ho]
      exact Or.inl ⟨hs, rfl⟩
    case isFalse => exact Or.inr ho
  intro s o ho
  show o.birth < w.births + 1 ∧ _
  rcases hold ho with ⟨hs, hb⟩ | ho
  · refine ⟨by omega, fun s' o' ho' heq => ?_⟩
    rcases hold ho' with ⟨hs', -⟩ | ho'
    · exact hs'.trans hs.symm
    · have := (h s' o' ho').1
      omega
  · obtain ⟨hlt, huniq⟩ := h s o ho
    refine ⟨by omega, fun s' o' ho' heq => ?_⟩
    rcases hold ho' with ⟨hs', hb'⟩ | ho'
    · omega
    · exact huniq s' o' ho' heq

theorem noNewShared_registerObject (w : World) (t : ThreadId) (a : Addr) :
    NoNewShared w (w.registerObject t a) := by
  unfold registerObject
  split
  · exact .refl w
  · exact .refl w

/-- The defaults that follow are writes. -/
theorem Numbered.baseCtor (h : Numbered w) (hs : Skel w) {o : Addr}
    {scope : Scope} {defaults : List (List Default)}
    (hu : w.baseCtor E t o scope defaults = some w') : Numbered w' := by
  unfold World.baseCtor at hu
  rw [hs.connecting t] at hu
  rw [← Option.some.inj hu]
  refine Numbered.mono ?_ (noNewShared_registerObject _ t o)
  refine (h.tsObjectCtor (E := E) (t := t) o scope).mono ?_
  refine writePropertyDefaults_induct
    (P := NoNewShared (w.tsObjectCtor E t o scope)) defaults ?_ (.refl _)
  intro u k v r _ hu hr
  obtain ⟨x, st, -, -, rfl⟩ := writeLocked_some hr
  exact hu.trans (noNewShared_commit u o x.s _)

/-- A connection that is freed may take its shared object along. -/
theorem Numbered.baseFree (h : Numbered w) (hs : Skel w) {o : Addr}
    {batch : List Addr} (hf : w.frame t = .freeing (o :: batch))
    (hu : w.baseFree t o = some w') : Numbered w' := by
  obtain ⟨s, hts, hres, ob, hob⟩ := hs.freeing hf
  rcases baseFree_cases hts hob hres hu with ⟨-, rfl⟩ | ⟨-, -, rfl⟩
  · refine h.mono ⟨rfl, fun s' o' ho' => ⟨o', ?_, rfl⟩⟩
    change (w.shared.free s).get s' = some o' at ho'
    rw [Heap.get_free] at ho'
    split at ho'
    case isTrue => cases ho'
    case isFalse => exact ho'
  · refine h.mono ⟨rfl, fun s' o' ho' => ?_⟩
    change (w.persisted t s ob).get s' = some o' at ho'
    unfold persisted at ho'
    rw [Heap.get_modify, Heap.get_modify] at ho'
    split at ho'
    · obtain ⟨o₁, ho₁, rfl⟩ := Option.map_eq_some_iff.mp ho'
      obtain ⟨o₂, ho₂, rfl⟩ := Option.map_eq_some_iff.mp ho₁
      exact ⟨o₂, ho₂, rfl⟩
    · exact ⟨o', ho', rfl⟩

/-- What one step preserves; `Reachable.numbered` is the run. -/
theorem step_numbered {act : Act} (hs : Skel w) (h : Numbered w)
    (hstep : step E w act = some w') : Numbered w' := by
  have hcon := fun t => hs.connecting t
  cases step_effect hstep with
  | ctor hf hu =>
      have hn := h.baseCtor hs hu
      exact hn
  | baseFree hf hu =>
      have hn := h.baseFree hs hf hu
      exact hn
  | connect _ => exact h.mono (objectConnect_grow (hcon _) _).noNewShared
  | @readRestored c k access x st v u hx _ _ hr =>
      have hg := grow_of_restored hr (hcon x.z.owner)
      exact h.mono hg.noNewShared
  | @readThrew c k access x st u hx hr =>
      have hg := grow_of_restored hr (hcon x.z.owner)
      exact h.mono hg.noNewShared
  | @write c key v x st hx _ _ =>
      have hn := noNewShared_commit w c x.s
        (w.writeStore x.z.owner x.z.loc x.o.props key st).2
      exact h.mono hn
  | @delete c k x hx _ =>
      have hn := noNewShared_commit w c x.s (bumpIf
        (memberIsCacheable x.o.props.hash k) x.z.loc (x.o.props.delete k))
      exact h.mono hn
  | deleteNothing _ _ => exact h.mono (noNewShared_commit w _ _ _)
  | @take act c x e p r u hx _ hr _ =>
      have hg := grow_of_restored hr (hcon x.z.owner)
      exact h.mono (hg.noNewShared.trans (noNewShared_commit u _ _ _))
  | chunk _ hr =>
      exact h.mono ((restoreAll_grow _ (hcon _) hr).noNewShared.trans
        (noNewShared_commit _ _ _ _))
  | merge _ _ _ => exact h.mono (noNewShared_commit w _ _ _)
  | tohash _ hr _ => exact h.mono (restoreAll_grow _ (hcon _) hr).noNewShared
  | fullSync _ hu =>
      have hsy := (fullSync_syncs visits_all _ (hcon _) trivial hu).1
      exact h.mono (noNewShared_of_props (hsy.extends (hcon _))
        (hsy.props (hcon _)))
  | join _ hu =>
      have hsy := joinSync_syncs visits_all (hcon _) trivial
        (fun _ _ => trivial) hu
      exact h.mono (noNewShared_of_props (hsy.extends (hcon _))
        (hsy.props (hcon _)))
  | _ => exact h

theorem Reachable.numbered (h : Reachable E w) : Numbered w :=
  (h.induct (P := fun w => Skel w ∧ Numbered w)
    ⟨skel_init, fun _ _ ho => by cases ho⟩
    fun _ _ _ hp hstep => ⟨step_skel hp.1 hstep,
      step_numbered hp.1 hp.2 hstep⟩).2

/-- The references of all shared tables name objects made before. -/
def NamesBelow (w : World) : Prop :=
  ∀ s k a b, w.entry s k = some (.object a b) → b < w.births

/-- New references name objects made before. -/
theorem NamesBelow.of_entries (h : NamesBelow w) (hb : w.births ≤ w'.births)
    (hent : ∀ s k a b, w'.entry s k = some (.object a b) →
      (∃ s' k', w.entry s' k' = some (.object a b)) ∨ b < w'.births) :
    NamesBelow w' := by
  intro s k a b he
  rcases hent s k a b he with ⟨s', k', he'⟩ | hlt
  · exact Nat.lt_of_lt_of_le (h s' k' a b he') hb
  · exact hlt

/-- The entries are what they were. -/
theorem NamesBelow.of_props (h : NamesBelow w) (hb : w'.births = w.births)
    (hp : ∀ s, (w'.shared.get s).map TsObj.props
      = (w.shared.get s).map TsObj.props) : NamesBelow w' :=
  h.of_entries (Nat.le_of_eq hb.symm) fun s k _ _ he =>
    Or.inl ⟨s, k, (entry_of_props hp s k).1 ▸ he⟩

theorem NamesBelow.grow (h : NamesBelow w) (hg : Grow E t w w') :
    NamesBelow w' := h.of_props hg.extends.births hg.props

/-- A store whose new entries name nothing that was not named before, or
something old. -/
theorem NamesBelow.commit (h : NamesBelow w) {c : Addr} {s : TsAddr}
    {r : Local × Store Storage} {o : TsObj} (ho : w.shared.get s = some o)
    (hent : ∀ k a b, r.2.hash.find k = some (.object a b) →
      (∃ s' k', w.entry s' k' = some (.object a b)) ∨ b < w.births) :
    NamesBelow (w.commit c s r) := by
  refine h.of_entries (Nat.le_refl w.births) fun s' k a b he => ?_
  rw [entry_commit ho] at he
  split at he
  · exact hent k a b he
  · exact Or.inl ⟨s', k, he⟩

/-- What can be named has a number that was given out. -/
theorem NamesBelow.birthOf_lt (hn : Numbered w) {a : Addr} {b : Nat}
    (hb : w.birthOf a = some b) : b < w.births := by
  obtain ⟨o, ho, rfl⟩ := Option.map_eq_some_iff.mp hb
  obtain ⟨s, -, ho⟩ := Option.bind_eq_some_iff.mp ho
  exact (hn s o ho).1

/-- What is written is an object that exists. -/
theorem NamesBelow.write (hn : Numbered w) (h : NamesBelow w) {c : Addr}
    {x : Conn} (hx : w.conn c = some x) {key : Option Key} {v : Zval}
    {st : Storage} (hst : w.saveZval x.z.owner v = some st) :
    NamesBelow (w.commit c x.s
      (w.writeStore x.z.owner x.z.loc x.o.props key st).2) := by
  obtain ⟨-, -, ho⟩ := conn_eq_some.mp hx
  refine h.commit ho fun k a b he => ?_
  rw [find_writeStore] at he
  split at he
  · rw [Option.some.inj he] at hst
    exact Or.inr (birthOf_lt hn (saveZval_object hst))
  · rw [← entry_eq ho k] at he
    exact Or.inl ⟨x.s, k, he⟩

/-- Defaults name no objects but those that exist. -/
theorem NamesBelow.baseCtor (hs : Skel w) (hn : Numbered w)
    (h : NamesBelow w) {a : Addr} {scope : Scope}
    {defaults : List (List Default)}
    (hu : w.baseCtor E t a scope defaults = some w') : NamesBelow w' := by
  unfold World.baseCtor at hu
  rw [hs.connecting t] at hu
  rw [← Option.some.inj hu]
  have hnew : NamesBelow (w.tsObjectCtor E t a scope) := by
    refine h.of_entries (Nat.le_succ w.births) fun s k b n he =>
      Or.inl ⟨s, k, ?_⟩
    unfold entry at he ⊢
    change ((w.shared.place _ _).get s).bind _ = _ at he
    rw [Heap.get_place] at he
    split at he
    · simp only [Option.bind_some, Store.init, HashTable.find_init] at he
      cases he
    · exact he
  have hall := writePropertyDefaults_induct
    (P := fun u => Numbered u ∧ NamesBelow u) (c := a) defaults
    (fun {u k v r} _ hu hr => by
      obtain ⟨x, st, hx, hst, rfl⟩ := writeLocked_some hr
      have hnum := hu.1.mono (noNewShared_commit u a x.s
        (u.writeStore x.z.owner x.z.loc x.o.props (some k) st).2)
      exact ⟨hnum, NamesBelow.write hu.1 hu.2 hx hst⟩)
    ⟨hn.tsObjectCtor (E := E) (t := t) a scope, hnew⟩
  unfold World.registerObject
  split
  · exact hall.2
  · exact hall.2

end PmmpThread.Model.World
