/-
What one write and one merge of an array change.

A write through a connection changes its own store and no other one
(`Inside`); the ThreadSafeArrays it makes on the way are new. One lemma
says what a write does (`storeWrite_spec`) and one what a merge into a
new ThreadSafeArray does (`mergeTable_spec`). They go through the value
together, as the two functions of the source call each other.
-/
import PmmpThread.Model.Merge
import PmmpThread.Proofs.Bounds
import PmmpThread.Proofs.Births

namespace PmmpThread.Model.World

open Zend

variable {E : Engine} {t : ThreadId} {w w' w'' : World} {s s' : TsAddr}

/-- An object that the thread holds is one of its connections. -/
theorem holds_object {a : Addr} (h : w.holds E t (.object a) = true) :
    ∃ x, w.conn a = some x ∧ x.z.owner = t := by
  change (w.conn a).any (fun x => x.z.owner == t) = true at h
  cases hx : w.conn a with
  | none =>
      rw [hx] at h
      cases h
  | some x =>
      rw [hx] at h
      exact ⟨x, rfl, beq_iff_eq.mp h⟩

theorem birthOf_conn {c : Addr} {x : Conn} (hx : w.conn c = some x) :
    w.birthOf c = some x.o.birth := by
  obtain ⟨hz, hts, ho⟩ := conn_eq_some.mp hx
  unfold birthOf tsOf
  rw [hz, Option.bind_some, hts, Option.bind_some, ho]
  rfl

-- ================================================================ frame

/-- `w'` has what `w` has, but for the store of `s` and local tables. -/
structure Inside (w : World) (s : TsAddr) (w' : World) : Prop where
  mem : ∀ {a z}, w.mem.get a = some z →
    ∃ l, w'.mem.get a = some { z with loc := l }
  other : ∀ {s' o}, s' ≠ s → w.shared.get s' = some o →
    w'.shared.get s' = some o
  self : ∀ {o}, w.shared.get s = some o →
    ∃ p, w'.shared.get s = some { o with props := p }
  strings : w'.strings = w.strings
  closures : w'.closures = w.closures
  connecting : w'.connecting = w.connecting
  births : w.births ≤ w'.births

namespace Inside

theorem refl (w : World) (s : TsAddr) : Inside w s w where
  mem h := ⟨_, h⟩
  other _ h := h
  self h := ⟨_, h⟩
  strings := rfl
  closures := rfl
  connecting := rfl
  births := Nat.le_refl _

/-- What happened to a store that is not there before does not count. -/
theorem trans_new (h : Inside w s w') (h' : Inside w' s' w'')
    (hs : s' = s ∨ w.shared.get s' = none) : Inside w s w'' where
  mem hz := by
    obtain ⟨l, hl⟩ := h.mem hz
    obtain ⟨l', hl'⟩ := h'.mem hl
    exact ⟨l', hl'⟩
  other {s₁ o} hne ho := by
    refine h'.other ?_ (h.other hne ho)
    rintro rfl
    rcases hs with rfl | hs
    · exact hne rfl
    · rw [hs] at ho
      cases ho
  self {o} ho := by
    obtain ⟨p, hp⟩ := h.self ho
    by_cases hss : s = s'
    · subst hss
      obtain ⟨p', hp'⟩ := h'.self hp
      exact ⟨p', hp'⟩
    · exact ⟨p, h'.other hss hp⟩
  strings := h'.strings.trans h.strings
  closures := h'.closures.trans h.closures
  connecting := h'.connecting.trans h.connecting
  births := Nat.le_trans h.births h'.births

theorem trans (h : Inside w s w') (h' : Inside w' s w'') :
    Inside w s w'' := h.trans_new h' (Or.inl rfl)

theorem tsOf (h : Inside w s w') {a : Addr} (ha : w.tsOf a = some s') :
    w'.tsOf a = some s' := by
  obtain ⟨z, hz, hs⟩ := Option.bind_eq_some_iff.mp ha
  obtain ⟨l, hl⟩ := h.mem hz
  exact Option.bind_eq_some_iff.mpr ⟨_, hl, hs⟩

theorem shared (h : Inside w s w') {o : TsObj}
    (ho : w.shared.get s' = some o) :
    ∃ p, w'.shared.get s' = some { o with props := p } := by
  by_cases hs : s' = s
  · subst hs
    exact h.self ho
  · exact ⟨o.props, h.other hs ho⟩

theorem shared_none (h : Inside w s w') (hn : w'.shared.get s' = none) :
    w.shared.get s' = none := by
  cases ho : w.shared.get s' with
  | none => rfl
  | some o =>
      obtain ⟨p, hp⟩ := h.shared ho
      rw [hn] at hp
      cases hp

theorem birthOf (h : Inside w s w') {a : Addr} {b : Nat}
    (hb : w.birthOf a = some b) : w'.birthOf a = some b := by
  obtain ⟨o, ho, hb⟩ := Option.map_eq_some_iff.mp hb
  obtain ⟨s₁, hs, ho⟩ := Option.bind_eq_some_iff.mp ho
  obtain ⟨p, hp⟩ := h.shared ho
  unfold World.birthOf
  rw [h.tsOf hs, Option.bind_some, hp]
  exact congrArg some hb

/-- A connection to another ts_obj. -/
theorem conn_other (h : Inside w s w') {c : Addr} {x : Conn}
    (hx : w.conn c = some x) (hs : x.s ≠ s) :
    ∃ l, w'.conn c = some ⟨{ x.z with loc := l }, x.s, x.o⟩ := by
  obtain ⟨hz, hts, ho⟩ := conn_eq_some.mp hx
  obtain ⟨l, hl⟩ := h.mem hz
  exact ⟨l, conn_eq_some.mpr ⟨hl, hts, h.other hs ho⟩⟩

theorem conn (h : Inside w s w') {c : Addr} {x : Conn}
    (hx : w.conn c = some x) :
    ∃ l p, w'.conn c = some ⟨{ x.z with loc := l }, x.s,
      { x.o with props := p }⟩ := by
  obtain ⟨hz, hts, ho⟩ := conn_eq_some.mp hx
  obtain ⟨l, hl⟩ := h.mem hz
  obtain ⟨p, hp⟩ := h.shared ho
  exact ⟨l, p, conn_eq_some.mpr ⟨hl, hts, hp⟩⟩

/-- Nor does what happens in a new ts_obj touch it. -/
theorem conn_outer {w₁ : World} {s' : TsAddr} (h : ∀ s, Inside w s w₁)
    (h' : Inside w₁ s' w') (hn : w.shared.get s' = none) {c : Addr} {x : Conn}
    (hx : w.conn c = some x) :
    ∃ l, w'.conn c = some ⟨{ x.z with loc := l }, x.s, x.o⟩ := by
  have hne : x.s ≠ s' := by
    rintro rfl
    rw [(conn_eq_some.mp hx).2.2] at hn
    cases hn
  obtain ⟨l, hx₁⟩ := (h s').conn_other hx hne
  obtain ⟨l', hx'⟩ := h'.conn_other hx₁ hne
  exact ⟨l', hx'⟩

theorem saveZval_some (h : Inside w s w') {v : Zval} {st : Storage}
    (hst : w.saveZval t v = some st) : w'.saveZval t v = some st := by
  cases v with
  | string p => rwa [saveZval, h.strings]
  | closure p => rwa [saveZval, h.closures]
  | object a =>
      obtain ⟨b, hb, rfl⟩ := Option.map_eq_some_iff.mp hst
      rw [saveZval, h.birthOf hb]
      rfl
  | _ => exact hst

/-- What the thread holds is saved the same. -/
theorem saveZval (h : Inside w s w') {v : Zval}
    (hv : w.holds E t v = true) : w'.saveZval t v = w.saveZval t v := by
  cases hst : w.saveZval t v with
  | some st => exact h.saveZval_some hst
  | none =>
      cases v with
      | string p => rw [World.saveZval, h.strings]; exact hst
      | closure p => rw [World.saveZval, h.closures]; exact hst
      | object a =>
          obtain ⟨x, hx, -⟩ := holds_object hv
          rw [World.saveZval, birthOf_conn hx] at hst
          cases hst
      | _ => exact hst

theorem holds (h : Inside w s w') {v : Zval} (hv : w.holds E t v = true) :
    w'.holds E t v = true := by
  cases v with
  | string p => rwa [World.holds, h.strings]
  | closure p => rwa [World.holds, h.closures]
  | object a =>
      obtain ⟨x, hx, ho⟩ := holds_object hv
      obtain ⟨l, p, hx'⟩ := h.conn hx
      rw [World.holds, hx']
      exact beq_iff_eq.mpr ho
  | _ => exact hv

end Inside

-- ======================================================== new ThreadSafeArrays

theorem registerObject_eq {a : Addr} {o : TsObj} (hs : w.tsOf a = some s)
    (ho : w.shared.get s = some o) :
    ∃ r, w.registerObject t a = { w with
      resolve := r
      mem := w.mem.modify a fun z => { z with
        loc := { z.loc with modcount := o.props.modcount - 1 } } } := by
  unfold registerObject
  rw [hs]
  dsimp only
  rw [ho]
  exact ⟨_, rfl⟩

/-- The connection of a new ThreadSafeArray. -/
def newConn (E : Engine) (w : World) (t : ThreadId) : Conn where
  z := { owner := t, tsObj := some (w.shared.next E.shared),
         loc := ⟨none, -1⟩, declared := [], gc := [] }
  s := w.shared.next E.shared
  o := { refcount := 1, creator := t, scope := .threaded, props := .init,
         birth := w.births }

/-- The new object is where none was, its ts_obj is where none was, and
nothing else changes. -/
theorem newArray_eq (hc : w.connecting t = none) :
    ∃ w', w.newArray E t = some (w.mem.next E.object, w')
      ∧ (∀ b, w'.mem.get b = if b = w.mem.next E.object
          then some (newConn E w t).z else w.mem.get b)
      ∧ (∀ s, w'.shared.get s = if s = w.shared.next E.shared
          then some (newConn E w t).o else w.shared.get s)
      ∧ w'.strings = w.strings ∧ w'.closures = w.closures
      ∧ w'.connecting = w.connecting ∧ w'.births = w.births + 1 := by
  generalize hu : ((w.objectAlloc E t []).2).tsObjectCtor E t
    (w.mem.next E.object) .threaded = u
  have hmem : ∀ b, u.mem.get b = if b = w.mem.next E.object
      then some { (newConn E w t).z with loc := ⟨none, 0⟩ }
      else w.mem.get b := by
    intro b
    rw [← hu]
    show ((w.mem.place (w.mem.next E.object) _).modify
      (w.mem.next E.object) _).get b = _
    rw [Heap.get_modify, Heap.get_place]
    split <;> rfl
  have hshared : ∀ s, u.shared.get s = if s = w.shared.next E.shared
      then some (newConn E w t).o else w.shared.get s := by
    intro s
    rw [← hu]
    show (w.shared.place _ _).get s = _
    rw [Heap.get_place]
    rfl
  have hts : u.tsOf (w.mem.next E.object) = some (w.shared.next E.shared) := by
    unfold tsOf
    rw [hmem, if_pos rfl]
    rfl
  obtain ⟨r, hr⟩ := registerObject_eq (t := t) hts
    (by rw [hshared, if_pos rfl])
  refine ⟨u.registerObject t (w.mem.next E.object), ?_, fun b => ?_,
    fun s => ?_, ?_⟩
  · unfold newArray createObject baseCtor
    dsimp only
    rw [show (w.objectAlloc E t []).2.connecting t = none from hc]
    dsimp only
    rw [← hu]
    rfl
  · rw [hr]
    show (u.mem.modify _ _).get b = _
    rw [Heap.get_modify, hmem]
    split <;> rfl
  · rw [hr]
    exact hshared s
  · rw [hr, ← hu]
    exact ⟨rfl, rfl, rfl, rfl⟩

theorem newArray_spec (hc : w.connecting t = none) :
    ∃ w', w.newArray E t = some (w.mem.next E.object, w')
      ∧ w'.conn (w.mem.next E.object) = some (newConn E w t)
      ∧ ∀ s, Inside w s w' := by
  obtain ⟨w', hw', hmem, hshared, hstr, hcl, hcon, hb⟩ :=
    newArray_eq (E := E) hc
  refine ⟨w', hw', conn_eq_some.mpr ⟨?_, rfl, ?_⟩, fun s => ?_⟩
  · rw [hmem, if_pos rfl]
  · rw [hshared]
    exact if_pos rfl
  · have hkeep : ∀ {s₁ o}, w.shared.get s₁ = some o →
        w'.shared.get s₁ = some o := by
      intro s₁ o ho
      rw [hshared, if_neg (Heap.ne_next_of_get ho)]
      exact ho
    refine ⟨fun {a z} hz => ⟨z.loc, ?_⟩, fun _ => hkeep,
      fun {o} ho => ⟨o.props, hkeep ho⟩, hstr, hcl, hcon, by omega⟩
    rw [hmem, if_neg (Heap.ne_next_of_get hz)]
    exact hz

/-- The keys of an array are not coerced, so they stay apart. -/
theorem nodup_coerced {es : List (Key × Php)}
    (h : CanonicalKeys (es.map Prod.fst)) :
    (es.map fun e => coerceKey e.1).Nodup := by
  have hkeys : es.map (fun e => coerceKey e.1) = es.map Prod.fst :=
    List.map_congr_left fun e he => h.1 e.1 (List.mem_map_of_mem he)
  exact hkeys ▸ h.2

-- ============================================================ one write

/-- A write through a connection, in one. -/
theorem write_eq {c : Addr} {x : Conn} (hx : w.conn c = some x)
    (key : Option Key) {v : Zval} {st : Storage}
    (hst : w.saveZval x.z.owner v = some st) :
    w.write c key v = some ((w.commit c x.s
      (w.writeStore x.z.owner x.z.loc x.o.props key st).2).updateLocalProperty
        c (x.o.props.member key) v) := by
  unfold write
  rw [writeLocked_eq hx, hst]
  rfl

/-- What a write leaves the connection with. -/
theorem conn_written {c : Addr} {x : Conn} (hx : w.conn c = some x)
    (r : Local × Store Storage) (k : Key) (v : Zval) :
    ((w.commit c x.s r).updateLocalProperty c k v).conn c
      = some ⟨{ x.z with loc := r.1.updateLocalProperty x.z.declared k v },
          x.s, { x.o with props := r.2 }⟩ := by
  obtain ⟨hz, hts, ho⟩ := conn_eq_some.mp hx
  refine conn_eq_some.mpr ⟨?_, hts, ?_⟩
  · show (Heap.modify _ _ _).get c = _
    rw [Heap.get_modify, if_pos rfl, mem_commit, if_pos rfl, hz]
    rfl
  · show (w.commit c x.s r).shared.get x.s = _
    rw [shared_commit, if_pos rfl, ho]
    rfl

/-- A write changes the connection and the table of its ts_obj. -/
theorem inside_written (w : World) (c : Addr) (s : TsAddr)
    (r : Local × Store Storage) (k : Key) (v : Zval) :
    Inside w s ((w.commit c s r).updateLocalProperty c k v) := by
  refine ⟨fun {a z} hza => ?_, fun {s' o} hne hos => ?_, fun {o} hos => ?_,
    rfl, rfl, rfl, Nat.le_refl _⟩
  · show ∃ l, (Heap.modify _ _ _).get a = _
    rw [Heap.get_modify, mem_commit, hza]
    split
    · exact ⟨_, rfl⟩
    · exact ⟨z.loc, rfl⟩
  · show (w.commit c s r).shared.get s' = _
    rw [shared_commit, if_neg hne]
    exact hos
  · show ∃ p, (w.commit c s r).shared.get s = _
    rw [shared_commit, if_pos rfl, hos]
    exact ⟨_, rfl⟩

/-- The end of a write whose value is saved. -/
theorem writeMember_spec {c : Addr} {x : Conn} (hx : w.conn c = some x)
    (key : Option Key) {v : Zval} {st : Storage}
    (hst : w.saveZval x.z.owner v = some st) (threw : Bool) :
    ∃ w' l p, w.writeMember c key v threw = ⟨true, threw, w'⟩
      ∧ Inside w x.s w'
      ∧ w'.conn c = some ⟨{ x.z with loc := l }, x.s,
          { x.o with props := p }⟩
      ∧ p.hash = x.o.props.hash.update true
          (x.o.props.member (key.map coerceKey)) st := by
  have hwrite := write_eq hx (key.map coerceKey) hst
  generalize hr : (w.writeStore x.z.owner x.z.loc x.o.props
    (key.map coerceKey) st).2 = r at hwrite
  refine ⟨_, _, r.2, ?_, inside_written w c x.s r
    (x.o.props.member (key.map coerceKey)) v, conn_written hx r _ v, ?_⟩
  · unfold writeMember
    rw [hwrite]
  · rw [← hr]
    show (bumpIf _ _ _).2.hash = _
    rw [bumpIf_hash, Store.write_hash]

theorem writeMember_refused {c : Addr} {x : Conn} (hx : w.conn c = some x)
    (key : Option Key) {v : Zval} (hst : w.saveZval x.z.owner v = none)
    (threw : Bool) :
    w.writeMember c key v threw = ⟨false, threw, w⟩ := by
  unfold writeMember write
  rw [writeLocked_eq hx, hst]
  rfl

-- =========================================================== what is kept

/-- The storage of a value written: a leaf as it is saved, an array as a
ts_obj that is new. -/
def StoredAs (w : World) (t : ThreadId) : Php → Storage → Prop
  | .leaf v, st => w.saveZval t v = some st
  | .array _, st => ∃ a b, st = .object a b ∧ w.births ≤ b

mutual
/-- What is kept stays kept while another store changes. -/
theorem StandsFor.mono {own own' : TsAddr → Prop} (h : Inside w s w')
    (hs : ¬ own s) (ho : ∀ s', own s' → own' s') :
    (v : Php) → ∀ (st : Storage), StandsFor w t own v st →
      StandsFor w' t own' v st
  | .leaf v => by
      intro st hk
      rw [StandsFor] at hk ⊢
      exact h.saveZval_some hk
  | .array es => by
      intro st hk
      rw [StandsFor] at hk ⊢
      obtain ⟨a, s₁, o, rfl, hts, hown, hos, hall⟩ := hk
      have hne : s₁ ≠ s := by
        rintro rfl
        exact hs hown
      exact ⟨a, s₁, o, rfl, h.tsOf hts, ho s₁ hown, h.other hne hos,
        StandForAll.mono h hs ho es _ hall⟩

theorem StandForAll.mono {own own' : TsAddr → Prop} (h : Inside w s w')
    (hs : ¬ own s) (ho : ∀ s', own s' → own' s') :
    (es : List (Key × Php)) → ∀ (sts : List (Key × Storage)),
      StandForAll w t own es sts → StandForAll w' t own' es sts
  | [] => by
      intro sts hk
      rw [StandForAll] at hk ⊢
      exact hk
  | (k, v) :: es => by
      intro sts hk
      rw [StandForAll] at hk ⊢
      obtain ⟨st, rest, rfl, hv, hrest⟩ := hk
      exact ⟨st, rest, rfl, StandsFor.mono h hs ho v st hv,
        StandForAll.mono h hs ho es rest hrest⟩
end

-- ================================================================ writes

/-- What one write of `v` under `key` does through the connection `c`,
which is `x`. -/
structure Wrote (w : World) (t : ThreadId) (coerceArray : Bool) (c : Addr)
    (x : Conn) (key : Option Key) (v : Php) (o : Ending) : Prop where
  within : Inside w x.s o.world
  raised : o.raised = !w.storable t coerceArray v
  refused : w.accepts t coerceArray v = false → o.world = w
  accepted : w.accepts t coerceArray v = true → ∃ st l p,
    o.world.conn c = some ⟨{ x.z with loc := l }, x.s,
        { x.o with props := p }⟩
      ∧ p.hash = x.o.props.hash.update true
          (x.o.props.member (key.map coerceKey)) st
      ∧ StoredAs w t v st
      ∧ (o.raised = false → v.Sound →
        StandsFor o.world t (fun s => w.shared.get s = none) v st)

/-- What a merge of `es` does, where none of its keys is there yet. -/
structure Merged (w : World) (t : ThreadId) (c : Addr) (x : Conn)
    (es : List (Key × Php)) (o : Ending) : Prop where
  within : Inside w x.s o.world
  threw : o.threw = !Php.allEntries (w.savable t) es
  ok : o.ok = !o.threw
  conn : ∃ l p, o.world.conn c = some ⟨{ x.z with loc := l }, x.s,
    { x.o with props := p }⟩
    ∧ (o.threw = false → Php.SoundEntries es →
      (es.map fun e => coerceKey e.1).Nodup →
      (∀ e ∈ es, coerceKey e.1 ∉ x.o.props.hash.entries.map Prod.fst) →
      ∃ sts, p.hash.entries = x.o.props.hash.entries ++ sts
        ∧ StandForAll o.world t (fun s => w.shared.get s = none) es sts)

mutual
/-- Whether a value can be stored does not change. -/
theorem Inside.all_savable (E : Engine) (h : Inside w s w') :
    (v : Php) → v.all (w.holds E t) = true →
      v.all (w'.savable t) = v.all (w.savable t)
  | .leaf v => by
      intro hv
      rw [Php.all] at hv
      rw [Php.all, Php.all, savable, savable, h.saveZval hv]
  | .array es => by
      intro hv
      rw [Php.all] at hv
      rw [Php.all, Php.all]
      exact Inside.allEntries_savable E h es hv

theorem Inside.allEntries_savable (E : Engine) (h : Inside w s w') :
    (es : List (Key × Php)) → Php.allEntries (w.holds E t) es = true →
      Php.allEntries (w'.savable t) es = Php.allEntries (w.savable t) es
  | [] => fun _ => rfl
  | (k, v) :: es => by
      intro hv
      rw [Php.allEntries, Bool.and_eq_true] at hv
      rw [Php.allEntries, Php.allEntries, Inside.all_savable E h v hv.1,
        Inside.allEntries_savable E h es hv.2]
end

mutual
/-- What the thread holds it still holds. -/
theorem Inside.all_holds (E : Engine) (h : Inside w s w') :
    (v : Php) → v.all (w.holds E t) = true → v.all (w'.holds E t) = true
  | .leaf v => by
      intro hv
      rw [Php.all] at hv ⊢
      exact h.holds hv
  | .array es => by
      intro hv
      rw [Php.all] at hv ⊢
      exact Inside.allEntries_holds E h es hv

theorem Inside.allEntries_holds (E : Engine) (h : Inside w s w') :
    (es : List (Key × Php)) → Php.allEntries (w.holds E t) es = true →
      Php.allEntries (w'.holds E t) es = true
  | [] => fun hv => hv
  | (k, v) :: es => by
      intro hv
      rw [Php.allEntries, Bool.and_eq_true] at hv ⊢
      exact ⟨Inside.all_holds E h v hv.1, Inside.allEntries_holds E h es hv.2⟩
end

theorem storeWrite_leaf {c : Addr} {x : Conn} {b : Bool} {key : Option Key}
    (hx : w.conn c = some x) (hown : x.z.owner = t) (v : Zval) :
    Wrote w t b c x key (.leaf v) (w.writeMember c key v false) := by
  cases hst : w.saveZval x.z.owner v with
  | none =>
      rw [writeMember_refused hx key hst]
      have hno : w.savable t v = false := by
        rw [savable, ← hown, hst]
        rfl
      refine ⟨.refl w x.s, ?_, fun _ => rfl, fun ha => ?_⟩
      · show true = !(w.savable t v && (Php.leaf v).all (w.savable t))
        rw [hno]
        rfl
      · rw [show w.accepts t b (.leaf v) = w.savable t v from rfl, hno] at ha
        cases ha
  | some st =>
      obtain ⟨w', l, p, hw', hin, hconn, hp⟩ :=
        writeMember_spec hx key hst false
      have hyes : w.savable t v = true := by
        rw [savable, ← hown, hst]
        rfl
      rw [hw']
      refine ⟨hin, ?_, fun ha => ?_, fun _ => ⟨st, l, p, hconn, hp, ?_, ?_⟩⟩
      · show false = !(w.savable t v && (Php.leaf v).all (w.savable t))
        rw [Php.all, hyes]
        rfl
      · rw [show w.accepts t b (.leaf v) = w.savable t v from rfl,
          hyes] at ha
        cases ha
      · show w.saveZval t v = some st
        rw [← hown]
        exact hst
      · intro _ _
        rw [StandsFor]
        refine hin.saveZval_some ?_
        rw [← hown]
        exact hst

/-- Where arrays are coerced, the leaves decide. -/
theorem storable_true (v : Php) :
    w.storable t true v = v.all (w.savable t) := by
  cases v with
  | leaf z =>
      rw [storable, accepts, Php.all, Bool.and_self]
  | array es => rfl

mutual
/-- One write, with the merges and writes inside it. -/
theorem storeWrite_spec (E : Engine) (t : ThreadId) :
    (v : Php) → ∀ (b : Bool) (w : World) (c : Addr) (x : Conn)
      (key : Option Key), w.conn c = some x → x.z.owner = t →
      w.connecting t = none → v.all (w.holds E t) = true →
      ∃ o, storeWrite E t b v w c key = some o ∧ Wrote w t b c x key v o
  | .leaf v => by
      intro b w c x key hx hown _ _
      exact ⟨_, rfl, storeWrite_leaf hx hown v⟩
  | .array es => by
      intro b w c x key hx hown hcon hheld
      cases b with
      | false =>
          refine ⟨⟨false, false, w⟩, ?_, .refl w x.s, ?_, fun _ => rfl,
            fun ha => ?_⟩
          · rw [storeWrite]
            rfl
          · rfl
          · cases ha
      | true =>
          rw [Php.all] at hheld
          obtain ⟨w₁, hnew, hconn₁, hin₁⟩ := newArray_spec (E := E) hcon
          obtain ⟨o₁, hmerge, hm⟩ := mergeTable_spec E t es w₁
            (w.mem.next E.object) (newConn E w t) hconn₁ rfl
            ((hin₁ x.s).connecting ▸ hcon)
            (Inside.allEntries_holds E (hin₁ x.s) es hheld)
          have hfresh : w.shared.get (w.shared.next E.shared) = none :=
            w.shared.get_next E.shared
          have hne : x.s ≠ w.shared.next E.shared :=
            Heap.ne_next_of_get (conn_eq_some.mp hx).2.2
          have hin₂ : Inside w x.s o₁.world :=
            (hin₁ x.s).trans_new hm.within (Or.inr hfresh)
          -- the destination is as it was, the new object is not it
          obtain ⟨l₂, hx₂⟩ := Inside.conn_outer hin₁ hm.within hfresh hx
          obtain ⟨l, p, hconn, hkept⟩ := hm.conn
          have hst : o₁.world.saveZval x.z.owner
              (.object (w.mem.next E.object))
                = some (.object (w.mem.next E.object) w.births) := by
            rw [saveZval, birthOf_conn hconn]
            rfl
          obtain ⟨w', l', p', hw', hin', hconn', hp'⟩ :=
            writeMember_spec hx₂ key hst o₁.threw
          have hthrew : o₁.threw = !Php.allEntries (w.savable t) es := by
            rw [hm.threw, Inside.allEntries_savable E (hin₁ x.s) es hheld]
          refine ⟨⟨true, o₁.threw, w'⟩, ?_, hin₂.trans hin', ?_,
            fun ha => ?_, fun _ => ⟨_, l', p', hconn', hp',
              ⟨_, w.births, rfl, Nat.le_refl _⟩, fun hr hsound => ?_⟩⟩
          · rw [storeWrite, if_pos rfl, hnew, Option.bind_some, hmerge,
              Option.map_some, hw']
          · exact hthrew
          · cases ha
          · rw [Php.Sound] at hsound
            obtain ⟨sts, hsts, hall⟩ := hkept hr hsound.2
              (nodup_coerced hsound.1) fun e _ hmem => by cases hmem
            obtain ⟨hz, hts, ho⟩ := conn_eq_some.mp hconn
            have htsOf : o₁.world.tsOf (w.mem.next E.object)
                = some (w.shared.next E.shared) :=
              (tsOf_of_get hz).trans hts
            rw [StandsFor]
            refine ⟨_, w.shared.next E.shared,
              { (newConn E w t).o with props := p }, rfl, hin'.tsOf htsOf,
              hfresh, hin'.other hne.symm ho, ?_⟩
            rw [show ({ (newConn E w t).o with props := p } : TsObj).props.hash
              = p.hash from rfl, hsts]
            refine StandForAll.mono hin' (fun hs => ?_)
              (fun s' hs => (hin₁ x.s).shared_none hs) es sts hall
            have hlive := (hin₁ (w.shared.next E.shared)).other hne
              (conn_eq_some.mp hx).2.2
            rw [hs] at hlive
            cases hlive

theorem mergeTable_spec (E : Engine) (t : ThreadId) :
    (es : List (Key × Php)) → ∀ (w : World) (c : Addr) (x : Conn),
      w.conn c = some x → x.z.owner = t → w.connecting t = none →
      Php.allEntries (w.holds E t) es = true →
      ∃ o, mergeTable E t true true es w c = some o ∧ Merged w t c x es o
  | [] => by
      intro w c x hx _ _ _
      refine ⟨⟨true, false, w⟩, rfl, .refl w x.s, rfl, rfl,
        x.z.loc, x.o.props, hx, fun _ _ _ _ => ⟨[], ?_, ?_⟩⟩
      · rw [List.append_nil]
      · rw [StandForAll]
  | (k, v) :: es => by
      intro w c x hx hown hcon hheld
      rw [Php.allEntries, Bool.and_eq_true] at hheld
      obtain ⟨o₁, hwrite, hw⟩ :=
        storeWrite_spec E t v true w c x (some k) hx hown hcon hheld.1
      have hstep : mergeTable E t true true ((k, v) :: es) w c
          = if o₁.raised then some ⟨false, true, o₁.world⟩
            else mergeTable E t true true es o₁.world c := by
        rw [mergeTable]
        simp only [Bool.not_true, Bool.false_and, Bool.false_eq_true,
          if_false, hwrite, Option.bind_some]
      have hraised := hw.raised
      rw [storable_true] at hraised
      cases hr : o₁.raised with
      | true =>
          rw [hr, if_pos rfl] at hstep
          refine ⟨⟨false, true, o₁.world⟩, hstep, hw.within, ?_, rfl, ?_⟩
          · rw [Php.allEntries, Bool.not_and, ← hraised, hr]
            rfl
          · obtain ⟨l, p, hconn⟩ := hw.within.conn hx
            exact ⟨l, p, hconn, fun h => nomatch h⟩
      | false =>
          rw [hr] at hstep hraised
          have hall : v.all (w.savable t) = true := by
            rw [← Bool.not_not (v.all _), ← hraised]
            rfl
          obtain ⟨st, l, p, hconn, hp, -, hkeeps⟩ := hw.accepted (by
            have := hw.raised
            rw [hr] at this
            by_contra hno
            rw [storable, Bool.not_eq_true _ |>.mp hno] at this
            cases this)
          obtain ⟨o, hmerge, hm⟩ := mergeTable_spec E t es o₁.world c _ hconn
            hown (hw.within.connecting ▸ hcon)
            (Inside.allEntries_holds E hw.within es hheld.2)
          have hin : Inside w x.s o.world := hw.within.trans hm.within
          refine ⟨o, hstep.trans hmerge, hin, ?_, hm.ok, ?_⟩
          · rw [hm.threw, Php.allEntries, hall, Bool.true_and,
              Inside.allEntries_savable E hw.within es hheld.2]
          · obtain ⟨l', p', hconn', hrest⟩ := hm.conn
            refine ⟨l', p', hconn', fun hthrew hsound hnd hout => ?_⟩
            rw [Php.SoundEntries] at hsound
            rw [List.map_cons, List.nodup_cons] at hnd
            have hnot : coerceKey k ∉ x.o.props.hash.entries.map Prod.fst :=
              hout (k, v) List.mem_cons_self
            have hent : p.hash.entries
                = x.o.props.hash.entries ++ [(coerceKey k, st)] := by
              rw [hp]
              exact HashTable.entries_update_of_notMem hnot
            obtain ⟨sts, hsts, hall'⟩ := hrest hthrew hsound.2 hnd.2
              fun e he hmem => by
                rw [hent, List.map_append, List.mem_append] at hmem
                rcases hmem with hmem | hmem
                · exact hout e (List.mem_cons_of_mem _ he) hmem
                · rw [List.map_cons, List.map_nil, List.mem_singleton] at hmem
                  exact hnd.1 (List.mem_map.mpr ⟨e, he, hmem⟩)
            refine ⟨(coerceKey k, st) :: sts, ?_, ?_⟩
            · rw [hsts, hent, List.append_assoc, List.singleton_append]
            · rw [StandForAll]
              refine ⟨st, sts, rfl, ?_, ?_⟩
              · refine StandsFor.mono hm.within (fun hs => ?_) (fun _ h => h) v
                  st
                  (hkeeps hr hsound.1)
                rw [(conn_eq_some.mp hx).2.2] at hs
                cases hs
              · refine StandForAll.mono (.refl _ x.s) (fun hs => ?_)
                  (fun _ h => hw.within.shared_none h) es sts hall'
                rw [(conn_eq_some.mp hconn).2.2] at hs
                cases hs
end

-- ============================================================ raising

end PmmpThread.Model.World
