/-
Memory safety of the store. In every reachable world a step that PHP code
and its thread can take ends, unless it turns one of three kinds of storage
into a value: a closure whose owner has freed it, an object whose address
now belongs to one that is not constructed yet, an enum case of a class the
thread does not have; or copies or frees a closure with a variable that
was never written. Nothing else that the code dereferences without a
reference can be gone: the string pointers of a table, the ts_obj of a
connection, the connections of the resolve table.

# Shape

Restoring only adds to the world, and what it adds is neither unbuilt nor
in the way of a storage, so that what faults in a row of storages can be
read off the world before the first of them (`Grow.storageFaults`). That
the pointer of a stored closure names one at all is an invariant of its
own (`ClosInv`).
-/
import PmmpThread.Proofs.CachedReads
import PmmpThread.Proofs.Steps

namespace PmmpThread.Model.World

open Zend

variable {E : Engine} {t : ThreadId} {w w' : World}

-- ====================================================== stored closures

/-- A stored closure pointer names a closure. -/
structure ClosInv (w : World) : Prop where
  stored : ∀ {s k p o q}, w.entry s k = some (.closure p o q) →
    p < w.closures.length

/-- New entries name closures that exist, and closures are never forgotten.
-/
theorem ClosInv.of_entries (h : ClosInv w)
    (hlen : w.closures.length ≤ w'.closures.length)
    (hent : ∀ {s k p o q}, w'.entry s k = some (.closure p o q) →
      (∃ s' k', w.entry s' k' = some (.closure p o q))
        ∨ p < w.closures.length) : ClosInv w' := by
  refine ⟨fun {s k p o q} he => ?_⟩
  rcases hent he with ⟨s', k', he'⟩ | hp
  · exact Nat.lt_of_lt_of_le (h.stored he') hlen
  · exact Nat.lt_of_lt_of_le hp hlen

theorem ClosInv.of_views (h : ClosInv w)
    (hlen : w.closures.length ≤ w'.closures.length)
    (hent : ∀ s k, w'.entry s k = w.entry s k) : ClosInv w' :=
  h.of_entries hlen fun {s k _ _ _} he => Or.inl ⟨s, k, hent s k ▸ he⟩

/-- Connecting and restoring store nothing. -/
theorem ClosInv.extends (h : ClosInv w) (hx : Extends w w')
    (hprops : ∀ s, (w'.shared.get s).map TsObj.props
      = (w.shared.get s).map TsObj.props) : ClosInv w' :=
  h.of_views hx.closures.length_le fun s k => (entry_of_props hprops s k).1

theorem ClosInv.grow (h : ClosInv w) (hg : Grow E t w w') : ClosInv w' :=
  h.extends hg.extends hg.props

/-- A store whose new closures exist. -/
theorem ClosInv.commit (h : ClosInv w) {c : Addr} {s : TsAddr}
    {r : Local × Store Storage} {o : TsObj} (ho : w.shared.get s = some o)
    (hent : ∀ {k p o q}, r.2.hash.find k = some (.closure p o q) →
      (∃ s' k', w.entry s' k' = some (.closure p o q))
        ∨ p < w.closures.length) : ClosInv (w.commit c s r) := by
  refine h.of_entries (Nat.le_refl _) fun {s' k _ _ _} he => ?_
  rw [entry_commit ho] at he
  split at he
  · exact hent he
  · exact Or.inl ⟨s', k, he⟩

/-- A closure that is saved is there. -/
theorem saveZval_closure {source : ThreadId} {v : Zval} {p : ClosurePtr}
    {o : Option Addr} {q : ThreadId}
    (h : w.saveZval source v = some (.closure p o q)) :
    p < w.closures.length := by
  cases v with
  | closure p' =>
      obtain ⟨cl, hcl, hst⟩ := Option.bind_eq_some_iff.mp h
      split at hst
      · injection hst with hst
        injection hst with hp
        exact hp ▸ (List.getElem?_eq_some_iff.mp hcl).1
      · cases hst
  | object a =>
      obtain ⟨b, -, heq⟩ := Option.map_eq_some_iff.mp h
      cases heq
  | string p' =>
      obtain ⟨s, -, heq⟩ := Option.map_eq_some_iff.mp h
      cases heq
  | _ => cases h

/-- So a write stores a closure that is there, -/
theorem ClosInv.write (h : ClosInv w) {c : Addr} {x : Conn}
    (hx : w.conn c = some x) {key : Option Key} {v : Zval} {st : Storage}
    (hst : w.saveZval x.z.owner v = some st) :
    ClosInv (w.commit c x.s
      (w.writeStore x.z.owner x.z.loc x.o.props key st).2) := by
  obtain ⟨-, -, ho⟩ := conn_eq_some.mp hx
  refine h.commit ho fun {k p o q} he => ?_
  rw [find_writeStore] at he
  split at he
  · rw [Option.some.inj he] at hst
    exact Or.inr (saveZval_closure hst)
  · rw [← entry_eq ho k] at he
    exact Or.inl ⟨x.s, k, he⟩

/-- and so do the defaults of a new object. -/
theorem ClosInv.baseCtor (hs : Skel w) (h : ClosInv w) {a : Addr}
    {scope : Scope} {defaults : List (List Default)}
    (hu : w.baseCtor E t a scope defaults = some w') : ClosInv w' := by
  unfold World.baseCtor at hu
  rw [hs.connecting t] at hu
  rw [← Option.some.inj hu]
  have hctor : ClosInv (w.tsObjectCtor E t a scope) :=
    h.of_entries (Nat.le_refl _) fun {s k _ _ _} he =>
      Or.inl ⟨s, k, entry_tsObjectCtor he⟩
  have hdefaults : ClosInv ((w.tsObjectCtor E t a scope).writePropertyDefaults
      a defaults) := by
    refine writePropertyDefaults_induct (P := fun w => ClosInv w) defaults ?_
      hctor
    intro u k v r _ hu hr
    obtain ⟨x, st, hx, hst, rfl⟩ := writeLocked_some hr
    exact (hu.write hx hst).of_views (Nat.le_refl _) fun _ _ => rfl
  unfold registerObject
  split
  · exact hdefaults
  · exact hdefaults.of_views (Nat.le_refl _) fun _ _ => rfl

/-- A free drops entries. -/
theorem ClosInv.baseFree (hs : Skel w) (h : ClosInv w) {a : Addr}
    {batch : List Addr} (hf : w.frame t = .freeing (a :: batch))
    (hu : w.baseFree t a = some w') : ClosInv w' := by
  obtain ⟨s, hts, hres, o, ho⟩ := hs.freeing hf
  refine h.of_entries ?_ fun {s' k p o' q} he => ?_
  · rw [(baseFree_mem hts ho hres hu).2.2.1]
  · rcases baseFree_entry hts ho hres hu s' k with h' | ⟨h', -⟩
    · rw [h'] at he
      split at he
      · cases he
      · exact Or.inl ⟨s', k, he⟩
    · rw [h'] at he
      split at he
      · obtain ⟨st, hst, hp⟩ := Option.map_eq_some_iff.mp he
        cases st with
        | stringPtr owner p' b =>
            unfold persistStorage at hp
            simp only [] at hp
            split at hp
            · split at hp <;> cases hp
            · cases hp
        | closure p' o'' q' => exact Or.inl ⟨s, k, hp ▸ hst⟩
        | _ => cases hp
      · exact Or.inl ⟨s', k, he⟩

/-- A hard copy of a storage is a closure only if the storage is. -/
theorem hardCopyStorage_closure {st : Storage} {p : ClosurePtr}
    {o : Option Addr} {q : ThreadId}
    (h : w.hardCopyStorage st = some (.closure p o q)) :
    st = .closure p o q := by
  cases st with
  | stringPtr owner p' b =>
      obtain ⟨s, -, hs⟩ := Option.map_eq_some_iff.mp h
      cases hs
  | _ => exact Option.some.inj h

/-- A merge copies entries that are there. -/
theorem ClosInv.merge (h : ClosInv w) {c source : Addr} {x y : Conn}
    {overwrite : Bool} {es : List (Key × Storage)} (hx : w.conn c = some x)
    (hy : w.conn source = some y)
    (hes : w.hardCopyAll y.o.props.hash.entries = some es) :
    ClosInv (w.commit c x.s (afterMerge x overwrite es)) := by
  obtain ⟨-, -, ho⟩ := conn_eq_some.mp hx
  obtain ⟨-, -, hoy⟩ := conn_eq_some.mp hy
  refine h.commit ho fun {k p o q} he => ?_
  rcases afterMerge_spec x overwrite (hardCopyAll_nodup hes) k with
    ⟨st, hw, hf, -⟩ | ⟨-, hf, -⟩
  · rw [hf] at he
    obtain ⟨st₀, hm₀, hc⟩ := (hardCopyAll_mem hes).2 k st hw.1
    rw [Option.some.inj he] at hc
    rw [hardCopyStorage_closure hc] at hm₀
    exact Or.inl ⟨y.s, k, (entry_eq hoy k).trans
      (HashTable.find_eq_some_iff.mpr hm₀)⟩
  · rw [hf] at he
    exact Or.inl ⟨x.s, k, (entry_eq ho k).trans he⟩

/-- What a storage names can be looked at: its string is live and its
closure pointer names a closure. -/
def Named (w : World) : Storage → Prop
  | .stringPtr _ p _ => (w.strings.get p).isSome = true
  | .closure p _ _ => p < w.closures.length
  | _ => True

/-- What can be looked at stays so. -/
theorem Named.extends (h : Extends w w') {st : Storage} (hn : Named w st) :
    Named w' st := by
  cases st with
  | stringPtr owner p b =>
      obtain ⟨s, hs⟩ := Option.isSome_iff_exists.mp hn
      exact Option.isSome_iff_exists.mpr ⟨s, h.strings hs⟩
  | closure p o q => exact Nat.lt_of_lt_of_le hn h.closures.length_le
  | _ => trivial

end PmmpThread.Model.World
