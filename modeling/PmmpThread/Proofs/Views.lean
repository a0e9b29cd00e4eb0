/-
The world as the invariants see it: the entry of a ts_obj under a key,
the value a connection caches under a key, and the two modification
counts. One lemma for each view and each move.
-/
import PmmpThread.Proofs.Tables
import PmmpThread.Proofs.Connections

namespace PmmpThread.Model.World

open Zend

variable {E : Engine} {t : ThreadId} {w w' : World}

/-- The storage under `k` in the shared table of `s`. -/
def entry (w : World) (s : TsAddr) (k : Key) : Option Storage :=
  (w.shared.get s).bind fun o => o.props.hash.find k

/-- The local table of a connection. -/
def locOf (w : World) (c : Addr) : Option Local :=
  (w.mem.get c).map ZObj.loc

/-- What a connection has validly cached under `k`. -/
def cachedAt (w : World) (c : Addr) (k : Key) : Option Zval :=
  (w.locOf c).bind fun l => l.cached k

/-- An entry is found in the store of its shared object. -/
theorem entry_eq {s : TsAddr} {o : TsObj} (ho : w.shared.get s = some o)
    (k : Key) : w.entry s k = o.props.hash.find k := by
  unfold entry
  rw [ho]
  rfl

/-- An entry has a live shared object. -/
theorem entry_some {s : TsAddr} {k : Key} {st : Storage}
    (h : w.entry s k = some st) :
    ∃ o, w.shared.get s = some o ∧ o.props.hash.find k = some st :=
  Option.bind_eq_some_iff.mp h

theorem modcountOf_eq {s : TsAddr} {o : TsObj}
    (ho : w.shared.get s = some o) : w.modcountOf s = o.props.modcount := by
  unfold modcountOf
  rw [ho]
  rfl

theorem cachedAt_eq {c : Addr} {z : ZObj} (hz : w.mem.get c = some z)
    (k : Key) : w.cachedAt c k = z.loc.cached k := by
  unfold cachedAt locOf
  rw [hz]
  rfl

-- ============================================================= commit

/-- A store is changed in place. -/
theorem shared_setStore (w : World) (s s' : TsAddr) (p : Store Storage) :
    (w.setStore s p).shared.get s'
      = if s' = s then (w.shared.get s').map fun o => { o with props := p }
        else w.shared.get s' :=
  Heap.get_modify _ _ _ _

/-- So is a local table. -/
theorem mem_setLocal (w : World) (c c' : Addr) (l : Local) :
    (w.setLocal c l).mem.get c'
      = if c' = c then (w.mem.get c').map fun z => { z with loc := l }
        else w.mem.get c' :=
  Heap.get_modify _ _ _ _

/-- The connection gets the local table of the pair, -/
theorem mem_commit (w : World) (c c' : Addr) (s : TsAddr)
    (r : Local × Store Storage) :
    (w.commit c s r).mem.get c'
      = if c' = c then (w.mem.get c').map fun z => { z with loc := r.1 }
        else w.mem.get c' :=
  mem_setLocal _ _ _ _

/-- and its shared object the store. -/
theorem shared_commit (w : World) (c : Addr) (s s' : TsAddr)
    (r : Local × Store Storage) :
    (w.commit c s r).shared.get s'
      = if s' = s then (w.shared.get s').map fun o => { o with props := r.2 }
        else w.shared.get s' :=
  shared_setStore _ _ _ _

/-- The entries of that object are those of the new store, others stay. -/
theorem entry_commit {c : Addr} {s : TsAddr} {r : Local × Store Storage}
    {o : TsObj} (ho : w.shared.get s = some o) (s' : TsAddr) (k : Key) :
    (w.commit c s r).entry s' k
      = if s' = s then r.2.hash.find k else w.entry s' k := by
  unfold entry
  rw [shared_commit]
  by_cases hs : s' = s
  · rw [if_pos hs, if_pos hs, hs, ho]
    rfl
  · rw [if_neg hs, if_neg hs]

/-- So is the modification count. -/
theorem modcountOf_commit {c : Addr} {s : TsAddr}
    {r : Local × Store Storage} {o : TsObj} (ho : w.shared.get s = some o)
    (s' : TsAddr) :
    (w.commit c s r).modcountOf s'
      = if s' = s then r.2.modcount else w.modcountOf s' := by
  unfold modcountOf
  rw [shared_commit]
  by_cases hs : s' = s
  · rw [if_pos hs, if_pos hs, hs, ho]
    rfl
  · rw [if_neg hs, if_neg hs]

/-- A write through a connection, as an update of one key. -/
theorem find_writeStore (w : World) (l : Local) (s : Store Storage)
    (key : Option Key) (st : Storage) (k : Key) :
    (w.writeStore t l s key st).2.2.hash.find k
      = if k = s.member key then some st else s.hash.find k := by
  show (bumpIf _ _ _).2.hash.find k = _
  rw [bumpIf_hash]
  exact Store.find_write s key st true k

/-- The ts_obj of every object outlasts changes of tables. -/
theorem tsOf_modify (w : World) (c a : Addr) {f : ZObj → ZObj}
    (hf : ∀ z, (f z).tsObj = z.tsObj) :
    tsOf { w with mem := w.mem.modify c f } a = w.tsOf a := by
  unfold tsOf
  rw [Heap.get_modify]
  split
  · cases w.mem.get a with
    | none => rfl
    | some z => exact hf z
  · rfl

/-- An object is who it is by its shared object. -/
theorem birthOf_modify (w : World) (c a : Addr) {f : ZObj → ZObj}
    (hf : ∀ z, (f z).tsObj = z.tsObj) :
    birthOf { w with mem := w.mem.modify c f } a = w.birthOf a := by
  unfold birthOf
  rw [tsOf_modify w c a hf]

theorem birthOf_setLocal (w : World) (c a : Addr) (l : Local) :
    (w.setLocal c l).birthOf a = w.birthOf a :=
  birthOf_modify w c a fun _ => rfl

theorem tsOf_commit (w : World) (c c' : Addr) (s : TsAddr)
    (r : Local × Store Storage) : (w.commit c s r).tsOf c' = w.tsOf c' :=
  tsOf_modify _ _ _ fun _ => rfl

/-- No change of stores and local tables makes it another one. -/
theorem birthOf_commit (w : World) (c c' : Addr) (s : TsAddr)
    (r : Local × Store Storage) :
    (w.commit c s r).birthOf c' = w.birthOf c' := by
  unfold birthOf
  rw [tsOf_commit]
  cases w.tsOf c' with
  | none => rfl
  | some s' =>
      show ((w.commit c s r).shared.get s').map _
        = (w.shared.get s').map _
      rw [shared_commit]
      split
      · cases w.shared.get s' <;> rfl
      · rfl

-- ============================================================ growing

/-- Additions change no shared table. -/
theorem GrowStep.props (h : GrowStep E t w w') (s : TsAddr) :
    (w'.shared.get s).map TsObj.props = (w.shared.get s).map TsObj.props := by
  cases h with
  | string b => rfl
  | closure cl => rfl
  | connection _ _ _ _ _ _ =>
      show (Heap.get (w.shared.modify _ _) s).map _ = _
      rw [Heap.get_modify]
      split
      · cases w.shared.get s <;> rfl
      · rfl

/-- Connecting changes reference counts, not stores. -/
theorem Grow.props (h : Grow E t w w') (s : TsAddr) :
    (w'.shared.get s).map TsObj.props = (w.shared.get s).map TsObj.props := by
  induction h with
  | refl => rfl
  | tail _ hs ih => rw [hs.props, ih]

/-- Entries and counts are in the stores. -/
theorem entry_of_props (h : ∀ s, (w'.shared.get s).map TsObj.props
    = (w.shared.get s).map TsObj.props) (s : TsAddr) (k : Key) :
    w'.entry s k = w.entry s k ∧ w'.modcountOf s = w.modcountOf s := by
  have hs := h s
  unfold entry modcountOf
  cases ho : w.shared.get s with
  | none =>
      rw [ho] at hs
      rw [Option.map_eq_none_iff.mp hs]
      exact ⟨rfl, rfl⟩
  | some o =>
      rw [ho] at hs
      obtain ⟨o', ho', hp⟩ := Option.map_eq_some_iff.mp hs
      rw [ho']
      simp only [Option.bind_some, Option.map_some, Option.getD_some, hp,
        and_self]

theorem Grow.entry (h : Grow E t w w') (s : TsAddr) (k : Key) :
    w'.entry s k = w.entry s k := (entry_of_props h.props s k).1

theorem Grow.modcountOf (h : Grow E t w w') (s : TsAddr) :
    w'.modcountOf s = w.modcountOf s := (entry_of_props h.props s (.long 0)).2

/-- A full sync changes no shared table. -/
theorem Syncs.props {own : ThreadId → Prop} (hc : w.connecting t = none)
    (h : Syncs E t own w w') (s : TsAddr) :
    (w'.shared.get s).map TsObj.props = (w.shared.get s).map TsObj.props := by
  induction h with
  | refl => rfl
  | grow _ hg ih => rw [hg.props, ih hc]
  | sync _ _ _ ih => exact ih hc
  | @put w u u₁ u₂ c x k st r hu _ _ _ _ _ hr _ hu₂ _ ih ih' =>
      have hcu := hu.connecting hc
      have hg := grow_of_restored hr hcu
      have hcu₁ : u₁.connecting t = none := by
        rw [hg.connecting]
        exact hcu
      exact (ih' hcu₁).trans ((hg.props s).trans (ih hc))

/-- A connection of thread `t` that nothing was read through yet. -/
def IsNew (w : World) (t : ThreadId) (z : ZObj) : Prop :=
  z.owner = t ∧ z.gc = [] ∧ ∃ s, z.tsObj = some s
    ∧ z.loc = ⟨none, w.modcountOf s - 1⟩

/-- A new connection has nothing cached. -/
theorem IsNew.cached {z : ZObj} (h : IsNew w t z) (k : Key) :
    z.loc.cached k = none := by
  obtain ⟨-, -, s, -, hl⟩ := h
  rw [hl]
  rfl

/-- What additions add to the objects are new connections of the
thread. -/
theorem GrowStep.new (h : GrowStep E t w w') {a : Addr} {z : ZObj}
    (hz : w'.mem.get a = some z) :
    w.mem.get a = some z ∨ w.mem.get a = none ∧ IsNew w t z := by
  cases h with
  | string b => exact Or.inl hz
  | closure cl => exact Or.inl hz
  | @connection b zb s _ _ _ _ _ =>
      change (w.mem.place _ _).get a = some z at hz
      rw [Heap.get_place] at hz
      split at hz
      case isTrue ha =>
        refine Or.inr ⟨?_, ?_⟩
        · rw [ha]
          exact w.mem.get_next E.object
        · rw [← Option.some.inj hz]
          exact ⟨rfl, rfl, s, rfl, rfl⟩
      case isFalse => exact Or.inl hz

/-- An object that was not there is new. -/
theorem Grow.new (h : Grow E t w w') {a : Addr} {z : ZObj}
    (hz : w'.mem.get a = some z) :
    w.mem.get a = some z ∨ w.mem.get a = none ∧ IsNew w t z := by
  induction h generalizing z with
  | refl => exact Or.inl hz
  | @tail u v hu hs ih =>
      rcases hs.new hz with hz | ⟨hn, hnew⟩
      · exact ih hz
      · refine Or.inr ⟨?_, ?_⟩
        · cases ha : w.mem.get a with
          | none => rfl
          | some z' =>
              rw [Grow.mem hu ha] at hn
              cases hn
        · obtain ⟨ho, hg, s, hts, hl⟩ := hnew
          exact ⟨ho, hg, s, hts, by rw [hl, Grow.modcountOf hu]⟩

end PmmpThread.Model.World
