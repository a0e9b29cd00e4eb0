/-
Single-copy strings. A `STORE_TYPE_STRING_PTR` storage holds a pointer
into the heap of the thread that wrote it and no reference. That the
string is still there when another thread copies it rests on the
writer's local table, which every operation has to keep in step with
the shared one. Here every step is shown to keep the invariant of
`Proofs/Ownership.lean`, for every thread.
-/
import PmmpThread.Proofs.Ownership

namespace PmmpThread.Model.World

open Zend

variable {E : Engine} {a t : ThreadId} {w w' : World}

-- =========================================================== mutators

/-- `r` stores no new string pointer, caches nothing new, and caches the
old value where a string pointer is left. -/
structure Trims (x : Conn) (r : Local × Store Storage) : Prop where
  find : ∀ {k t p b}, r.2.hash.find k = some (.stringPtr t p b) →
    x.o.props.hash.find k = some (.stringPtr t p b)
      ∧ r.1.cached k = x.z.loc.cached k
  cached : ∀ {k v}, r.1.cached k = some v → x.z.loc.cached k = some v

/-- Shift and pop trim, -/
theorem trims_afterTake {x : Conn} {e : Key × Storage} {p : Store Storage}
    (h : Takes x.o.props e p) : Trims x (afterTake x e p) where
  find {k _ _ _} hk := by
    obtain ⟨h1, h2⟩ := afterTake_spec h k
    rw [h1] at hk
    split at hk
    · cases hk
    · rename_i hne
      rw [if_neg hne] at h2
      exact ⟨hk, h2⟩
  cached {k v} hv := by
    rw [(afterTake_spec h k).2] at hv
    split at hv
    · cases hv
    · exact hv

/-- so does a chunk, -/
theorem trims_afterChunk (x : Conn) (size : Int) :
    Trims x (afterChunk x (x.o.props.chunk size).1
      (x.o.props.chunk size).2) where
  find {k _ _ _} hk := by
    obtain ⟨h1, h2⟩ := afterChunk_spec x size k
    rw [h1] at hk
    split at hk
    · cases hk
    · rename_i hne
      rw [if_neg hne] at h2
      exact ⟨hk, h2⟩
  cached {k v} hv := by
    rw [(afterChunk_spec x size k).2] at hv
    split at hv
    · cases hv
    · exact hv

/-- A hard copy is never a pointer into another heap. -/
theorem hardCopyStorage_ne {st : Storage} {p : StrPtr} {b : Bytes} :
    w.hardCopyStorage st ≠ some (.stringPtr t p b) := by
  intro h
  cases st with
  | stringPtr owner q b' =>
      obtain ⟨s, -, hs⟩ := Option.map_eq_some_iff.mp h
      cases hs
  | _ => cases h

/-- a merge, which copies string pointers by value, -/
theorem trims_afterMerge {x y : Conn} (overwrite : Bool)
    {es : List (Key × Storage)}
    (hes : w.hardCopyAll y.o.props.hash.entries = some es) :
    Trims x (afterMerge x overwrite es) := by
  have hnd := hardCopyAll_nodup hes
  refine ⟨fun {k _ _ _} hk => ?_, fun {k v} hv => ?_⟩
  · rcases afterMerge_spec x overwrite hnd k with ⟨st, hw, hf, -⟩ |
      ⟨-, hf, hc⟩
    · rw [hf] at hk
      obtain ⟨st₀, -, hcopy⟩ := (hardCopyAll_mem hes).2 k st hw.1
      rw [Option.some.inj hk] at hcopy
      exact absurd hcopy hardCopyStorage_ne
    · rw [hf] at hk
      exact ⟨hk, hc⟩
  · rcases afterMerge_spec x overwrite hnd k with ⟨st, -, -, hc⟩ |
      ⟨-, -, hc⟩
    · rw [hc] at hv
      cases hv
    · rw [hc] at hv
      exact hv

/-- and a deletion. -/
theorem trims_delete (x : Conn) (b : Bool) (k : Key) :
    Trims x (bumpIf b x.z.loc (x.o.props.delete k)) where
  find {k' _ _ _} hk := by
    rw [bumpIf_hash, Store.find_delete] at hk
    split at hk
    · cases hk
    · exact ⟨hk, bumpIf_cached _ _ _ _⟩
  cached hv := by
    rw [bumpIf_cached] at hv
    exact hv

theorem By.setFrame (w : World) (a : ThreadId) (f : Frame) :
    By a w (w.setFrame a f) :=
  { By.refl a w with frame := fun ht => Function.update_of_ne ht _ _ }

/-- What trims is a step of the connection's thread that is safe for the
others. -/
theorem Trims.by {x : Conn} {r : Local × Store Storage} (h : Trims x r)
    {c : Addr} (hx : w.conn c = some x) (f : Frame) :
    By x.z.owner w ((w.commit c x.s r).setFrame x.z.owner f) := by
  obtain ⟨-, -, ho⟩ := conn_eq_some.mp hx
  refine ((edit_commit hx r).setFrame f).by rfl
    (fun ht => Function.update_of_ne ht _ _) fun {s k t p b} _ he => ?_
  change (w.commit c x.s r).entry s k = _ at he
  rw [entry_commit ho] at he
  split at he
  case isTrue hs =>
    rw [hs, entry_eq ho]
    exact (h.find he).1
  case isFalse => exact he

theorem frame_setFrame (w : World) (t : ThreadId) (f : Frame) :
    (w.setFrame t f).frame t = f := Function.update_self _ _ _

/-- A mutator other than write keeps the invariant of its thread. -/
theorem OwnOf.trims (h : OwnOf w t) (hs : Skel w) {c : Addr} {x : Conn}
    (hx : w.conn c = some x) (ho : x.z.owner = t) (hidle : w.frame t = .idle)
    {r : Local × Store Storage} (hr : Trims x r) {f : Frame}
    (hf : f = .idle ∨ ∃ k, f = .drop c k ∧ r.2.hash.find k = none) :
    OwnOf ((w.commit c x.s r).setFrame t f) t := by
  obtain ⟨hz, hts, hos⟩ := conn_eq_some.mp hx
  have honly := hs.only hz ho hts
  have hin : Within c (w.frame t) := by rw [hidle]; trivial
  have hnofill : ∀ k v, f ≠ .fill c k v := by
    intro k v hfv
    rcases hf with hf | ⟨k', hf, -⟩
    · rw [hf] at hfv; cases hfv
    · rw [hf] at hfv; cases hfv
  refine h.change ((edit_commit hx r).setFrame f) ho hts hin ?_
    (fun s' k hs' => ?_) (fun k v hv => ?_) ?_ fun k p b he => ?_
  · rw [frame_setFrame]
    rcases hf with rfl | ⟨k, rfl, -⟩
    · trivial
    · rfl
  · show (w.commit c x.s r).entry s' k = _
    rw [entry_commit hos, if_neg hs']
  · exact h.held_cached hz ho hin (hr.cached hv)
  · rw [frame_setFrame]
    rcases hf with rfl | ⟨k, rfl, -⟩
    · trivial
    · trivial
  · change (w.commit c x.s r).entry x.s k = _ at he
    rw [entry_commit hos, if_pos rfl] at he
    obtain ⟨hfind, hc⟩ := hr.find he
    obtain ⟨hp, hb⟩ := h.backs hz honly ((entry_eq hos k).trans hfind)
    rw [frame_setFrame]
    refine ⟨hp, Or.inl ?_, fun v hv => absurd hv (hnofill k v), ?_⟩
    · rw [hc]
      rcases hb.kept with hk | hk
      · exact hk
      · rw [hidle] at hk
        cases hk
    · intro hd
      rcases hf with hf | ⟨k', hf, hn⟩
      · rw [hf] at hd; cases hd
      · rw [hf] at hd
        injection hd with _ hkk
        rw [hkk, he] at hn
        cases hn

-- ============================================================== write

/-- The test that a thread makes of a value. -/
theorem held_of_holds {v : Zval} (h : w.holds E t v = true) : Held w t v := by
  cases v with
  | object l =>
      obtain ⟨x, hx, ho⟩ := (Option.any_eq_true _ _).mp h
      exact ⟨x.z, (conn_eq_some.mp hx).1, beq_iff_eq.mp ho⟩
  | string p =>
      obtain ⟨s, hs, ho⟩ := (Option.any_eq_true _ _).mp h
      exact ⟨s.bytes, by rw [hs, ← beq_iff_eq.mp ho]⟩
  | closure p =>
      obtain ⟨cl, hcl, -⟩ := (Option.any_eq_true _ _).mp h
      exact ⟨cl, hcl⟩
  | _ => trivial

/-- The storage of a string is a pointer of the writing thread. -/
theorem saveZval_stringPtr {v : Zval} {owner : ThreadId} {p : StrPtr}
    {b : Bytes} (h : w.saveZval t v = some (.stringPtr owner p b)) :
    owner = t ∧ v = .string p
      ∧ ∃ s, w.strings.get p = some s ∧ s.bytes = b := by
  cases v with
  | string q =>
      obtain ⟨s, hs, heq⟩ := Option.map_eq_some_iff.mp h
      injection heq with h1 h2 h3
      exact ⟨h1.symm, by rw [h2], s, h2 ▸ hs, h3⟩
  | object l =>
      obtain ⟨b', -, heq⟩ := Option.map_eq_some_iff.mp h
      cases heq
  | closure q =>
      obtain ⟨cl, -, hcl⟩ := Option.bind_eq_some_iff.mp h
      split at hcl
      · cases hcl
      · cases hcl
  | _ => cases h

/-- A write caches nothing before it has stored. -/
theorem cached_writeStore {l : Local} {s : Store Storage} {key : Option Key}
    {st : Storage} {k : Key} {v : Zval}
    (h : (w.writeStore t l s key st).2.1.cached k = some v) :
    l.cached k = some v := by
  have h' := cached_of_syncLocal h
  rw [bumpIf_cached] at h'
  exact h'

/-- A string that is written is kept alive by the frame until it is cached.
-/
theorem OwnOf.write (h : OwnOf w t) {c : Addr} {x : Conn}
    (hx : w.conn c = some x) (ho : x.z.owner = t)
    (honly : Only w t x.s c) (hidle : w.frame t = .idle) (key : Option Key)
    {v : Zval} {st : Storage} (hh : Held w t v)
    (hst : w.saveZval t v = some st) :
    OwnOf ((w.commit c x.s (w.writeStore t x.z.loc x.o.props key st).2).setFrame
      t (.fill c (x.o.props.member key) v)) t := by
  obtain ⟨hz, hts, hos⟩ := conn_eq_some.mp hx
  have hin : Within c (w.frame t) := by rw [hidle]; trivial
  refine h.change ((edit_commit hx _).setFrame _) ho hts hin ?_
    (fun s' k hs' => ?_) (fun k v hv => ?_) ?_ fun k p b he => ?_
  · rw [frame_setFrame]
    rfl
  · show (w.commit c x.s _).entry s' k = _
    rw [entry_commit hos, if_neg hs']
  · exact h.held_cached hz ho hin (cached_writeStore hv)
  · rw [frame_setFrame]
    exact hh
  · change (w.commit c x.s _).entry x.s k = _ at he
    rw [entry_commit hos, if_pos rfl] at he
    rw [frame_setFrame]
    by_cases hk : k = x.o.props.member key
    -- the new storage: its string is what the frame is about to cache
    · rw [find_writeStore, if_pos hk] at he
      rw [Option.some.inj he] at hst
      obtain ⟨-, hv, s, hs, hb⟩ := saveZval_stringPtr hst
      rw [hv] at hh ⊢
      obtain ⟨b', hb'⟩ := hh
      have : s = ⟨t, b'⟩ := Option.some.inj (hs.symm.trans hb')
      refine ⟨by rw [hb', ← hb, this], Or.inr (by rw [hk]), fun v' hv' => ?_,
        fun hd => (nomatch hd)⟩
      injection hv' with _ _ hv'
      exact hv'.symm
    -- an old one: the sync that ends the write has kept its string
    · rw [find_writeStore, if_neg hk] at he
      obtain ⟨hp, hb⟩ := h.backs hz honly ((entry_eq hos k).trans he)
      refine ⟨hp, Or.inl ?_, fun v' hv' => ?_, fun hd => (nomatch hd)⟩
      · refine cached_syncLocal_of_keep ?_
          ((find_writeStore (t := t) w x.z.loc x.o.props key st k).trans ?_)
          (keepCached_own w t p b)
        · rw [bumpIf_cached]
          rcases hb.kept with hc | hc
          · exact hc
          · rw [hidle] at hc
            cases hc
        · rw [if_neg hk]
          exact he
      · injection hv' with _ hkk _
        exact absurd hkk.symm hk

/-- Others see an entry with a string of the writer. -/
theorem By.commitWrite {c : Addr} {x : Conn} (hx : w.conn c = some x)
    {key : Option Key} {v : Zval} {st : Storage}
    (hst : w.saveZval x.z.owner v = some st) :
    By x.z.owner w (w.commit c x.s
      (w.writeStore x.z.owner x.z.loc x.o.props key st).2) := by
  obtain ⟨-, -, ho⟩ := conn_eq_some.mp hx
  refine (edit_commit hx _).by rfl (fun _ => rfl) fun {s k t p b} ht he => ?_
  rw [entry_commit ho] at he
  split at he
  case isTrue hs =>
    rw [find_writeStore] at he
    split at he
    · rw [Option.some.inj he] at hst
      exact absurd (saveZval_stringPtr hst).1 ht
    · rw [hs, entry_eq ho]
      exact he
  case isFalse => exact he

-- ======================================================== after unlock

/-- The write ends: the value is in the local table. -/
theorem OwnOf.fill (h : OwnOf w t) {c : Addr} {z : ZObj} {s : TsAddr}
    (hz : w.mem.get c = some z) (ho : z.owner = t) (hts : z.tsObj = some s)
    (honly : Only w t s c) {k : Key} {v : Zval}
    (hf : w.frame t = .fill c k v) :
    OwnOf ((w.updateLocalProperty c k v).setFrame t .idle) t := by
  have hin : Within c (w.frame t) := by rw [hf]; rfl
  have hheld : Held w t v := by
    have := h.frame
    rw [hf] at this
    exact this
  refine h.change ((edit_modify hz fun z =>
    z.loc.updateLocalProperty z.declared k v).setFrame _) ho hts hin
    (by rw [frame_setFrame]; trivial) (fun _ _ _ => rfl)
    (fun k' v' hv' => ?_) (by rw [frame_setFrame]; trivial)
    fun k' p b he => ?_
  · rw [Local.cached_updateLocalProperty] at hv'
    split at hv'
    · rw [← Option.some.inj hv']
      exact hheld
    · exact h.held_cached hz ho hin hv'
  · obtain ⟨hp, hb⟩ := h.backs hz honly he
    rw [frame_setFrame]
    refine ⟨hp, Or.inl ?_, fun _ hv => (nomatch hv), fun hd => (nomatch hd)⟩
    rw [Local.cached_updateLocalProperty]
    by_cases hk : k' = k
    · have hv : v = .string p := hb.fill v (by rw [hk]; exact hf)
      rw [if_pos ⟨hk, by rw [hv]; rfl⟩, hv]
    · rw [if_neg fun hh => hk hh.1]
      rcases hb.kept with hc | hc
      · exact hc
      · rw [hf] at hc
        injection hc with _ hkk _
        exact absurd hkk.symm hk

/-- The read ends, with nothing to keep. -/
theorem OwnOf.drop (h : OwnOf w t) {c : Addr} {z : ZObj} {s : TsAddr}
    (hz : w.mem.get c = some z) (ho : z.owner = t) (hts : z.tsObj = some s)
    (honly : Only w t s c) {k : Key} (hf : w.frame t = .drop c k) :
    OwnOf ({ w with mem := w.mem.modify c fun z =>
      { z with loc := z.loc.del k } }.setFrame t .idle) t := by
  have hin : Within c (w.frame t) := by rw [hf]; rfl
  refine h.change ((edit_modify hz fun z => z.loc.del k).setFrame _) ho hts
    hin (by rw [frame_setFrame]; trivial) (fun _ _ _ => rfl)
    (fun k' v' hv' => ?_) (by rw [frame_setFrame]; trivial)
    fun k' p b he => ?_
  · rw [Local.cached_del] at hv'
    split at hv'
    · cases hv'
    · exact h.held_cached hz ho hin hv'
  · obtain ⟨hp, hb⟩ := h.backs hz honly he
    rw [frame_setFrame]
    refine ⟨hp, Or.inl ?_, fun _ hv => (nomatch hv), fun hd => (nomatch hd)⟩
    rw [Local.cached_del, if_neg]
    · rcases hb.kept with hc | hc
      · exact hc
      · rw [hf] at hc
        cases hc
    · intro hk
      exact hb.drop (by rw [hk]; exact hf)

/-- The frame that a read leaves. -/
theorem OwnOf.setFill (h : OwnOf w t) (hs : Skel w) {c : Addr} {x : Conn}
    (hx : w.conn c = some x) (ho : x.z.owner = t) (hidle : w.frame t = .idle)
    {k : Key} {v : Zval} (hv : Held w t v)
    (hk : ∀ p b, x.o.props.hash.find k = some (.stringPtr t p b) →
      v = .string p) : OwnOf (w.setFrame t (.fill c k v)) t := by
  obtain ⟨hz, hts, hos⟩ := conn_eq_some.mp hx
  have honly := hs.only hz ho hts
  have hin : Within c (w.frame t) := by rw [hidle]; trivial
  refine h.change ((edit_self hz).setFrame _) ho hts hin
    (by rw [frame_setFrame]; rfl) (fun _ _ _ => rfl)
    (fun k v hv => h.held_cached hz ho hin hv)
    (by rw [frame_setFrame]; exact hv) fun k' p b he => ?_
  obtain ⟨hp, hb⟩ := h.backs hz honly he
  rw [frame_setFrame]
  refine ⟨hp, Or.inl ?_, fun v' hv' => ?_, fun hd => (nomatch hd)⟩
  · rcases hb.kept with hc | hc
    · exact hc
    · rw [hidle] at hc
      cases hc
  · injection hv' with _ hkk hvv
    rw [← hvv]
    exact hk p b (by rw [hkk, ← entry_eq hos]; exact he)

/-- A frame that concerns no connection in place of one that does not
either. -/
theorem OwnOf.setNeutral (h : OwnOf w t) {f : Frame}
    (hf : ∀ c, Within c (w.frame t)) (hf' : ∀ c, Within c f)
    (hheld : FrameHeld w t f) : OwnOf (w.setFrame t f) t := by
  have hneutral : ∀ {f : Frame}, (∀ c, Within c f) →
      (∀ c k v, f ≠ .fill c k v) ∧ ∀ c k, f ≠ .drop c k := by
    intro f hf
    refine ⟨fun c k v hc => ?_, fun c k hc => ?_⟩
    · have := hf (c + 1)
      rw [hc] at this
      exact absurd this (Nat.ne_of_lt (Nat.lt_succ_self c))
    · have := hf (c + 1)
      rw [hc] at this
      exact absurd this (Nat.ne_of_lt (Nat.lt_succ_self c))
  have hsafe : ∀ {v}, Safe w t v → Safe (w.setFrame t f) t v := by
    intro v hv
    refine ⟨hv.1, fun l _ => ?_⟩
    rw [frame_setFrame, (hf' 0).batch]
    exact List.not_mem_nil
  refine ⟨fun hz ho _ hv => hsafe (h.cached hz ho ?_ hv),
    fun hz ho _ hl => hsafe (h.gc hz ho ?_ hl), ?_, h.globals,
    fun {s k p b} he => ?_⟩
  · rw [(hf 0).batch]
    exact List.not_mem_nil
  · rw [(hf 0).batch]
    exact List.not_mem_nil
  · rw [frame_setFrame]
    exact hheld
  · obtain ⟨hp, c, z, hz, ho, hts, hb⟩ := h.strings he
    refine ⟨hp, c, z, hz, ho, hts, ?_⟩
    rw [frame_setFrame]
    exact ⟨Or.inl (hb.kept.resolve_right ((hneutral hf).1 c k _)),
      fun v hv => absurd hv ((hneutral hf').1 c k v), (hneutral hf').2 c k⟩

-- ============================================ allocation, construction

theorem By.objectAlloc (w : World) (declared : List Key) :
    By a w (w.objectAlloc E a declared).2 :=
  { By.refl a w with
    back := fun {c z} hz ho => by
      change (w.mem.place _ _).get c = some z at hz
      rw [Heap.get_place] at hz
      split at hz
      · rw [← Option.some.inj hz] at ho
        exact absurd rfl ho
      · exact hz
    mem := fun {c z} hz _ => by
      show (w.mem.place _ _).get c = some z
      rw [Heap.get_place, if_neg (Heap.ne_next_of_get hz)]
      exact hz }

/-- An allocation leaves the objects that are there. -/
theorem get_objectAlloc {declared : List Key} {c : Addr} {z : ZObj}
    (hz : w.mem.get c = some z) :
    (w.objectAlloc E t declared).2.mem.get c = some z := by
  show (w.mem.place _ _).get c = some z
  rw [Heap.get_place, if_neg (Heap.ne_next_of_get hz)]
  exact hz

theorem Held.objectAlloc {v : Zval} (hv : Held w t v) (declared : List Key) :
    Held (w.objectAlloc E t declared).2 t v := by
  cases v with
  | object l =>
      obtain ⟨z, hz, ho⟩ := hv
      exact ⟨z, get_objectAlloc hz, ho⟩
  | _ => exact hv

/-- A new object has nothing yet. -/
theorem OwnOf.objectAlloc (h : OwnOf w t) (declared : List Key) :
    OwnOf (w.objectAlloc E t declared).2 t := by
  have hheld : ∀ {v}, Held w t v → Held (w.objectAlloc E t declared).2 t v :=
    fun hv => hv.objectAlloc declared
  have hback : ∀ {c z}, (w.objectAlloc E t declared).2.mem.get c = some z →
      w.mem.get c = some z ∨ z.loc = ⟨none, 0⟩ ∧ z.gc = [] := by
    intro c z hz
    change (w.mem.place _ _).get c = some z at hz
    rw [Heap.get_place] at hz
    split at hz
    · rw [← Option.some.inj hz]
      exact Or.inr ⟨rfl, rfl⟩
    · exact Or.inl hz
  refine ⟨fun hz ho hb hv => ?_, fun hz ho hb hl => ?_,
    h.frame.mono hheld, fun hg => hheld (h.globals hg), fun he => ?_⟩
  · rcases hback hz with hz | ⟨hn, -⟩
    · obtain ⟨hh, hs⟩ := h.cached hz ho hb hv
      exact ⟨hheld hh, hs⟩
    · rw [hn] at hv
      cases hv
  · rcases hback hz with hz | ⟨-, hn⟩
    · obtain ⟨hh, hs⟩ := h.gc hz ho hb hl
      exact ⟨hheld hh, hs⟩
    · rw [hn] at hl
      cases hl
  · obtain ⟨hp, c, z, hz, ho, hts, hb⟩ := h.strings he
    exact ⟨hp, c, z, get_objectAlloc hz, ho, hts, hb⟩

/-- A new ts_obj has no entries. -/
theorem entry_tsObjectCtor {o : Addr} {scope : Scope} {s : TsAddr} {k : Key}
    {st : Storage}
    (h : (w.tsObjectCtor E t o scope).entry s k = some st) :
    w.entry s k = some st := by
  unfold entry at h ⊢
  change ((w.shared.place _ _).get s).bind _ = _ at h
  rw [Heap.get_place] at h
  split at h
  · simp only [Option.bind_some, Store.init, HashTable.find_init] at h
    cases h
  · exact h

/-- The object gets its shared object. -/
theorem get_tsObjectCtor {o : Addr} {z : ZObj} {scope : Scope}
    (hz : w.mem.get o = some z) (c : Addr) :
    (w.tsObjectCtor E t o scope).mem.get c
      = if c = o then some { z with tsObj := some (w.shared.next E.shared) }
        else w.mem.get c := by
  show (w.mem.modify o _).get c = _
  rw [Heap.get_modify]
  by_cases hc : c = o
  · rw [if_pos hc, if_pos hc, hc, hz]
    rfl
  · rw [if_neg hc, if_neg hc]

theorem Held.tsObjectCtor {o : Addr} {z : ZObj} {scope : Scope}
    (hz : w.mem.get o = some z) {v : Zval} (hv : Held w t v) :
    Held (w.tsObjectCtor E t o scope) t v := by
  cases v with
  | object l =>
      obtain ⟨zl, hzl, ho⟩ := hv
      by_cases hl : l = o
      · rw [hl, hz] at hzl
        rw [← Option.some.inj hzl] at ho
        refine ⟨{ z with tsObj := some (w.shared.next E.shared) }, ?_, ho⟩
        rw [get_tsObjectCtor hz, if_pos hl]
      · exact ⟨zl, by rw [get_tsObjectCtor hz, if_neg hl]; exact hzl, ho⟩
  | _ => exact hv

/-- A new store is empty. -/
theorem OwnOf.tsObjectCtor (h : OwnOf w t) {o : Addr} {z : ZObj}
    {scope : Scope} (hz : w.mem.get o = some z) (hts : z.tsObj = none) :
    OwnOf (w.tsObjectCtor E t o scope) t := by
  have hback : ∀ {c z'},
      (w.tsObjectCtor E t o scope).mem.get c = some z' →
      ∃ z'', w.mem.get c = some z'' ∧ z''.owner = z'.owner
        ∧ z''.loc = z'.loc ∧ z''.gc = z'.gc := by
    intro c z' hz'
    rw [get_tsObjectCtor hz] at hz'
    split at hz'
    case isTrue hc =>
      rw [hc, ← Option.some.inj hz']
      exact ⟨z, hz, rfl, rfl, rfl⟩
    case isFalse => exact ⟨z', hz', rfl, rfl, rfl⟩
  have hheld : ∀ {v}, Held w t v →
      Held (w.tsObjectCtor E t o scope) t v := fun hv => hv.tsObjectCtor hz
  refine ⟨fun hz' ho hb hv => ?_, fun hz' ho hb hl => ?_,
    h.frame.mono hheld, fun hg => hheld (h.globals hg), fun he => ?_⟩
  · obtain ⟨z'', hz'', ho', hl, -⟩ := hback hz'
    rw [← hl] at hv
    obtain ⟨hh, hs⟩ := h.cached hz'' (ho'.trans ho) hb hv
    exact ⟨hheld hh, hs⟩
  · obtain ⟨z'', hz'', ho', -, hg⟩ := hback hz'
    rw [← hg] at hl
    obtain ⟨hh, hs⟩ := h.gc hz'' (ho'.trans ho) hb hl
    exact ⟨hheld hh, hs⟩
  · obtain ⟨hp, c, zc, hzc, ho, htsc, hb⟩ :=
      h.strings (entry_tsObjectCtor he)
    refine ⟨hp, c, zc, ?_, ho, htsc, hb⟩
    rw [get_tsObjectCtor hz, if_neg]
    · exact hzc
    · intro hc
      rw [hc, hz] at hzc
      rw [← Option.some.inj hzc, hts] at htsc
      cases htsc

theorem By.tsObjectCtor {o : Addr} {z : ZObj} {scope : Scope}
    (hz : w.mem.get o = some z) (ho : z.owner = a) :
    By a w (w.tsObjectCtor E a o scope) :=
  { By.refl a w with
    back := fun {c z'} hz' ho' => by
      rw [get_tsObjectCtor hz] at hz'
      split at hz'
      · rw [← Option.some.inj hz'] at ho'
        exact absurd ho ho'
      · exact hz'
    mem := fun {c z'} hz' ho' => by
      rw [get_tsObjectCtor hz, if_neg]
      · exact hz'
      · intro hc
        rw [hc, hz] at hz'
        exact ho' (Option.some.inj hz' ▸ ho)
    strings := fun _ he => entry_tsObjectCtor he }

theorem setFrame_setFrame (w : World) (t : ThreadId) (f g : Frame) :
    (w.setFrame t f).setFrame t g = w.setFrame t g := by
  unfold setFrame
  simp only [Function.update_idem]

/-- A change of local tables makes no second connection. -/
theorem Only.edit {c c' : Addr} {z : ZObj} {l : Local} {s : TsAddr}
    (h : Only w t s c') (he : Edit w w' c z l) : Only w' t s c' := by
  intro d zd hd ho hts
  rw [he.mem] at hd
  split at hd
  case isTrue hdc =>
    rw [← Option.some.inj hd] at ho hts
    exact hdc ▸ h c z he.here ho hts
  case isFalse => exact h d zd hd ho hts

/-- One default written in the constructor: the write and its cache
update, without the frame in between. -/
theorem OwnOf.writeDefault {o : Addr} {x : Conn}
    (h : OwnOf (w.setFrame t .idle) t) (hx : w.conn o = some x)
    (ho : x.z.owner = t) (honly : Only w t x.s o) {key : Option Key}
    {v : Zval} {st : Storage} (hh : Held w t v)
    (hst : w.saveZval t v = some st) :
    OwnOf (((w.commit o x.s (w.writeStore t x.z.loc x.o.props key
      st).2).updateLocalProperty o (x.o.props.member key) v).setFrame t
        .idle) t := by
  obtain ⟨hz, hts, -⟩ := conn_eq_some.mp hx
  have h1 := OwnOf.write h hx ho honly (frame_setFrame w t .idle) key hh hst
  have he := (edit_commit hx (w.writeStore t x.z.loc x.o.props key st).2)
  have hz' : (w.commit o x.s (w.writeStore t x.z.loc x.o.props key
      st).2).mem.get o = some { x.z with
        loc := (w.writeStore t x.z.loc x.o.props key st).2.1 } := by
    rw [he.mem, if_pos rfl]
  have honly' := honly.edit he
  have h2 := h1.fill hz' ho hts honly' (frame_setFrame _ t _)
  -- the frames on the way do not matter
  change OwnOf (((((w.commit o x.s (w.writeStore t x.z.loc x.o.props key
    st).2).updateLocalProperty o (x.o.props.member key) v).setFrame t
      .idle).setFrame t (.fill o (x.o.props.member key) v)).setFrame t
        .idle) t at h2
  rw [setFrame_setFrame, setFrame_setFrame] at h2
  exact h2

theorem By.modify {c : Addr} {z : ZObj} (hz : w.mem.get c = some z)
    (ho : z.owner = a) (f : ZObj → Local) :
    By a w { w with mem := w.mem.modify c fun z => { z with loc := f z } } :=
  (edit_modify hz f).by ho (fun _ => rfl) fun _ h => h

/-- The object `o` of thread `t` while its constructor runs, with its
ts_obj `s`; `w` is the world before. -/
structure Building (w u : World) (t : ThreadId) (o : Addr) (s : TsAddr)
    (defaults : List (List Default)) : Prop where
  by_ : By t w u
  own : OwnOf (u.setFrame t .idle) t
  only : Only u t s o
  obj : ∃ z, u.mem.get o = some z ∧ z.owner = t ∧ z.tsObj = some s
  held : ∀ d ∈ defaults.flatten, Held u t d.2

/-- The constructor starts with what the caller gave it. -/
theorem Building.start (hs : Skel w) (h : OwnOf w t) {o : Addr}
    {scope : Scope} {defaults : List (List Default)}
    (hf : w.frame t = .allocated o scope defaults) :
    Building w (w.tsObjectCtor E t o scope) t o (w.shared.next E.shared)
      defaults := by
  have hfo := hs.frames t
  rw [hf] at hfo
  obtain ⟨z, hz, ho, hts⟩ := hfo
  have hdef := h.frame
  rw [hf] at hdef
  have hidle : OwnOf (w.setFrame t .idle) t := by
    refine h.setNeutral (fun c => ?_) (fun _ => trivial) trivial
    rw [hf]
    trivial
  refine ⟨.tsObjectCtor hz ho, OwnOf.tsObjectCtor hidle hz hts, ?_,
    ⟨{ z with tsObj := some (w.shared.next E.shared) }, ?_, ho, rfl⟩,
    fun d hd => (hdef d hd).tsObjectCtor hz⟩
  · intro c zc hc _ htsc
    rw [get_tsObjectCtor hz] at hc
    split at hc
    case isTrue hco => exact hco
    case isFalse =>
      obtain ⟨oc, hoc⟩ := hs.tsLive hc htsc
      exact absurd rfl (Heap.ne_next_of_get hoc)
  · rw [get_tsObjectCtor hz, if_pos rfl]

/-- Each default is a write that ends at once. -/
theorem Building.write {u : World} {o : Addr} {s : TsAddr}
    {defaults : List (List Default)} (h : Building w u t o s defaults)
    {k : Key} {v : Zval} (hkv : (k, v) ∈ defaults.flatten)
    {r : Key × World} (hr : u.writeLocked o (some k) v = some r) :
    Building w (r.2.updateLocalProperty o r.1 v) t o s defaults := by
  obtain ⟨x, st, hx, hst, rfl⟩ := writeLocked_some hr
  obtain ⟨z, hz, ho, hts⟩ := h.obj
  obtain ⟨hxz, hxs, -⟩ := conn_eq_some.mp hx
  rw [← Option.some.inj (hxz.symm.trans hz)] at ho hts
  have hss : x.s = s := Option.some.inj (hxs.symm.trans hts)
  subst ho
  have he := edit_commit hx
    (u.writeStore x.z.owner x.z.loc x.o.props (some k) st).2
  have hz' := he.mem o
  rw [if_pos rfl] at hz'
  have he' := edit_modify hz' fun z => z.loc.updateLocalProperty
    z.declared (x.o.props.member (some k)) v
  have hz'' := he'.mem o
  rw [if_pos rfl] at hz''
  refine ⟨(h.by_.trans (By.commitWrite hx hst)).trans (.modify hz' rfl _),
    h.own.writeDefault hx rfl (hss ▸ h.only) (h.held _ hkv) hst,
    (h.only.edit he).edit he', ⟨_, hz'', rfl, hts⟩,
    fun d hd => he'.held (he.held (h.held d hd))⟩

/-- Registering the object changes its modification count only. -/
theorem Building.register {u : World} {o : Addr} {s : TsAddr}
    {defaults : List (List Default)} (h : Building w u t o s defaults) :
    By t w (u.registerObject t o)
      ∧ OwnOf ((u.registerObject t o).setFrame t .idle) t := by
  obtain ⟨z, hz, ho, hts⟩ := h.obj
  have htsOf : u.tsOf o = some s :=
    (tsOf_of_get hz).trans hts
  have hz' : (u.setFrame t .idle).mem.get o = some z := hz
  have honly : Only (u.setFrame t .idle) t s o := h.only
  unfold registerObject
  rw [htsOf]
  refine ⟨{ h.by_.trans (.modify hz ho fun z =>
    { z.loc with modcount := _ }) with }, ?_⟩
  refine h.own.change (z := z) (l := { z.loc with modcount := _ })
    { edit_modify hz fun z => { z.loc with modcount := _ } with } ho hts
    (by rw [frame_setFrame]; trivial) (by rw [frame_setFrame]; trivial)
    (fun _ _ _ => rfl) (fun k v hv => ?_) (by rw [frame_setFrame]; trivial)
    fun k p b he => ?_
  · exact h.own.held_cached hz' ho (by rw [frame_setFrame]; trivial) hv
  · obtain ⟨hp, hb⟩ := h.own.backs hz' honly he
    refine ⟨hp, ?_⟩
    rw [frame_setFrame] at hb ⊢
    exact ⟨hb.kept, hb.fill, hb.drop⟩

/-- A plain construction, with the defaults it writes. -/
theorem ctor_own (hs : Skel w) (h : OwnOf w t) {o : Addr} {scope : Scope}
    {defaults : List (List Default)} {u : World}
    (hf : w.frame t = .allocated o scope defaults)
    (hu : w.baseCtor E t o scope defaults = some u) :
    By t w u ∧ OwnOf (u.setFrame t .idle) t := by
  have hall := writePropertyDefaults_induct (P := fun u =>
      Building w u t o (w.shared.next E.shared) defaults) defaults
    (fun hkv hP hr => hP.write hkv hr) (Building.start (E := E) hs h hf)
  unfold baseCtor at hu
  rw [hs.connecting t] at hu
  rw [← Option.some.inj hu]
  exact hall.register

-- ========================================================== gc queues

/-- The world with another gc queue in `o`. -/
def setGc (w : World) (o : Addr) (f : List Addr → List Addr) : World :=
  { w with mem := w.mem.modify o fun z => { z with gc := f z.gc } }

theorem By.setGc {o : Addr} {z : ZObj} (hz : w.mem.get o = some z)
    (ho : z.owner = a) (f : List Addr → List Addr) :
    By a w (w.setGc o f) :=
  { By.refl a w with
    back := fun {c z'} hz' ho' => by
      change (w.mem.modify o _).get c = some z' at hz'
      rw [Heap.get_modify] at hz'
      split at hz'
      case isTrue hc =>
        rw [hc, hz] at hz'
        rw [← Option.some.inj hz'] at ho'
        exact absurd ho ho'
      case isFalse => exact hz'
    mem := fun {c z'} hz' ho' => by
      show (w.mem.modify o _).get c = some z'
      rw [Heap.get_modify_ne]
      · exact hz'
      · intro hc
        rw [hc, hz] at hz'
        exact ho' (Option.some.inj hz' ▸ ho) }

/-- The queue of an object has objects of its thread. -/
theorem OwnOf.setGc (h : OwnOf w t) {o : Addr} {z : ZObj}
    (hz : w.mem.get o = some z) (f : List Addr → List Addr)
    (hf : ∀ l ∈ f z.gc, o ∉ (w.frame t).batch → Safe w t (.object l)) :
    OwnOf (w.setGc o f) t := by
  have hget : ∀ {c z'}, (w.setGc o f).mem.get c = some z' →
      ∃ z'', w.mem.get c = some z'' ∧ z''.owner = z'.owner
        ∧ z''.loc = z'.loc
        ∧ (z'.gc = z''.gc ∨ c = o ∧ z'.gc = f z.gc) := by
    intro c z' hz'
    change (w.mem.modify o _).get c = some z' at hz'
    rw [Heap.get_modify] at hz'
    split at hz'
    case isTrue hc =>
      rw [hc, hz] at hz'
      rw [← Option.some.inj hz', hc]
      exact ⟨z, hz, rfl, rfl, Or.inr ⟨rfl, rfl⟩⟩
    case isFalse => exact ⟨z', hz', rfl, rfl, Or.inl rfl⟩
  have hmem : ∀ {c z'}, w.mem.get c = some z' → ∃ gc,
      (w.setGc o f).mem.get c = some { z' with gc } := by
    intro c z' hz'
    show ∃ gc, (w.mem.modify o _).get c = _
    rw [Heap.get_modify]
    split
    · rw [hz']
      exact ⟨_, rfl⟩
    · exact ⟨_, hz'⟩
  have hheld : ∀ {v}, Held w t v → Held (w.setGc o f) t v := by
    intro v hv
    cases v with
    | object l =>
        obtain ⟨zl, hzl, hol⟩ := hv
        obtain ⟨gc, hgc⟩ := hmem hzl
        exact ⟨_, hgc, hol⟩
    | _ => exact hv
  refine ⟨fun hz' ho' hb hv => ?_, fun {c z' l} hz' ho' hb hl => ?_,
    h.frame.mono hheld, fun hg => hheld (h.globals hg), fun he => ?_⟩
  · obtain ⟨z'', hz'', ho'', hl, -⟩ := hget hz'
    rw [← hl] at hv
    obtain ⟨hh, hs⟩ := h.cached hz'' (ho''.trans ho') hb hv
    exact ⟨hheld hh, hs⟩
  · obtain ⟨z'', hz'', ho'', -, hg⟩ := hget hz'
    have hsafe : Safe w t (.object l) := by
      rcases hg with hg | ⟨hc, hg⟩
      · rw [hg] at hl
        exact h.gc hz'' (ho''.trans ho') hb hl
      · rw [hg] at hl
        exact hf _ hl (hc ▸ hb)
    exact ⟨hheld hsafe.1, hsafe.2⟩
  · obtain ⟨hp, c, zc, hzc, hoc, hts, hb⟩ := h.strings he
    obtain ⟨gc, hgc⟩ := hmem hzc
    exact ⟨hp, c, _, hgc, hoc, hts, hb⟩

-- ============================================================ freeing

/-- A cached object is referred to, -/
theorem refersTo_of_cached {z : ZObj} {k : Key} {l : Addr}
    (h : z.loc.cached k = some (.object l)) : z.refersTo l = true := by
  have hf := (Option.filter_eq_some_iff.mp h).1
  unfold ZObj.refersTo
  rw [Bool.or_eq_true, List.any_eq_true]
  exact Or.inl ⟨(k, .object l), HashTable.find_eq_some_iff.mp hf,
    beq_self_eq_true _⟩

/-- and a cached string is held. -/
theorem holdsString_of_cached {z : ZObj} {k : Key} {p : StrPtr}
    (h : z.loc.cached k = some (.string p)) : z.holdsString p = true := by
  have hf := (Option.filter_eq_some_iff.mp h).1
  unfold ZObj.holdsString
  rw [List.any_eq_true]
  exact ⟨(k, .string p), HashTable.find_eq_some_iff.mp hf,
    beq_self_eq_true _⟩

theorem mem_entries_of_get {c : Addr} {z : ZObj} (hz : w.mem.get c = some z) :
    (⟨c, z⟩ : Sigma fun _ : Nat => ZObj) ∈ w.mem.cells.entries :=
  (List.mem_dlookup_iff w.mem.cells.nodupKeys).mp hz

/-- What the engine has found unreachable, nothing else refers to. -/
theorem canRelease_spec {batch : List Addr}
    (h : w.canRelease t batch = true) :
    w.frame t = .idle ∧ ∀ {c z}, w.mem.get c = some z → c ∉ batch →
      ∀ l ∈ batch, z.refersTo l = false := by
  unfold canRelease at h
  simp only [Bool.and_eq_true, List.all_eq_true, Bool.or_eq_true,
    decide_eq_true_eq] at h
  obtain ⟨⟨⟨⟨hidle, -⟩, -⟩, -⟩, hcells⟩ := h
  refine ⟨isIdle_iff.mp hidle, fun {c z} hz hc l hl => ?_⟩
  have := (hcells ⟨c, z⟩ (mem_entries_of_get hz)).resolve_left hc l hl
  rw [Bool.not_eq_true'] at this
  exact this

/-- A batch may be freed if nobody outside of it refers to it. -/
theorem OwnOf.release (h : OwnOf w t) {batch : List Addr}
    (hb : w.canRelease t batch = true) :
    OwnOf (w.setFrame t (.freeing batch)) t := by
  obtain ⟨hidle, hrefs⟩ := canRelease_spec hb
  have hnil : ∀ c, c ∉ (w.frame t).batch := by
    intro c
    rw [hidle]
    exact List.not_mem_nil
  refine ⟨fun {c z k v} hz ho hc hv => ?_, fun {c z l} hz ho hc hl => ?_,
    by rw [frame_setFrame]; trivial, h.globals, fun he => ?_⟩
  · rw [frame_setFrame] at hc
    refine ⟨(h.cached hz ho (hnil c) hv).1, fun l hvl hl => ?_⟩
    rw [frame_setFrame] at hl
    rw [hvl] at hv
    have := refersTo_of_cached hv
    rw [hrefs hz hc l hl] at this
    cases this
  · rw [frame_setFrame] at hc
    refine ⟨(h.gc hz ho (hnil c) hl).1, fun l' hvl hl' => ?_⟩
    rw [frame_setFrame] at hl'
    injection hvl with hvl
    rw [← hvl] at hl'
    have hr : z.refersTo l = true := by
      unfold ZObj.refersTo
      rw [Bool.or_eq_true]
      exact Or.inr (decide_eq_true hl)
    rw [hrefs hz hc l hl'] at hr
    cases hr
  · obtain ⟨hp, c, z, hz, ho, hts, hk⟩ := h.strings he
    refine ⟨hp, c, z, hz, ho, hts, ?_⟩
    rw [frame_setFrame]
    refine ⟨Or.inl ?_, fun v hv => (nomatch hv), fun hd => (nomatch hd)⟩
    rcases hk.kept with hc | hc
    · exact hc
    · rw [hidle] at hc
      cases hc

/-- What a free of `o`, a connection of thread `t` to `s`, leaves in the
shared tables: those of the others, and in `s` no string of `t`. -/
theorem baseFree_entry {o : Addr} {s : TsAddr} {ob : TsObj}
    (hts : w.tsOf o = some s) (ho : w.shared.get s = some ob)
    (hres : w.resolve t s = some o) (hu : w.baseFree t o = some w')
    (s' : TsAddr) (k : Key) :
    w'.entry s' k = (if s' = s then none else w.entry s' k)
      ∨ w'.entry s' k = (if s' = s then (w.entry s k).map (w.persistStorage t)
          else w.entry s' k)
        ∧ ∀ st, w.entry s k = some st → w.danglesFor t st = false := by
  rcases baseFree_cases hts ho hres hu with ⟨-, rfl⟩ | ⟨-, hd, rfl⟩
  · refine Or.inl ?_
    show (Heap.get (w.shared.free s) s').bind _ = _
    rw [Heap.get_free]
    split
    · rfl
    · rfl
  · refine Or.inr ⟨?_, fun st hst => ?_⟩
    · show (Heap.get (w.persisted t s ob) s').bind _ = _
      rw [get_persisted ho]
      split
      · rw [entry_eq ho]
        exact HashTable.find_mapVal _ _ _
      · rfl
    · rw [entry_eq ho] at hst
      exact hd (k, st) (HashTable.find_eq_some_iff.mp hst)

/-- After persisting, no pointer to a string of this thread is left. -/
theorem persistStorage_stringPtr {st : Storage} {p : StrPtr} {b : Bytes}
    {owner : ThreadId} (hd : w.danglesFor t st = false)
    (h : w.persistStorage t st = .stringPtr owner p b) :
    owner ≠ t ∧ st = .stringPtr owner p b := by
  cases st with
  | stringPtr o q b' =>
      unfold persistStorage at h
      simp only [] at h
      split at h
      case isTrue ho =>
        unfold danglesFor at hd
        simp only [ho, BEq.rfl, Bool.true_and] at hd
        cases hq : w.strings.get q with
        | some s => rw [hq] at h; cases h
        | none => rw [hq] at hd; cases hd
      case isFalse ho =>
        injection h with h1 h2 h3
        exact ⟨h1 ▸ ho, by rw [h1, h2, h3]⟩
  | _ => cases h

/-- What a free leaves: everything but the object. -/
theorem baseFree_mem {o : Addr} {s : TsAddr} {ob : TsObj}
    (hts : w.tsOf o = some s) (ho : w.shared.get s = some ob)
    (hres : w.resolve t s = some o) (hu : w.baseFree t o = some w') :
    w'.mem = w.mem.free o ∧ w'.strings = w.strings
      ∧ w'.closures = w.closures ∧ w'.frame = w.frame
      ∧ w'.threadSharedGlobals = w.globalsWithout t o := by
  rcases baseFree_cases hts ho hres hu with ⟨-, rfl⟩ | ⟨-, -, rfl⟩
  · exact ⟨rfl, rfl, rfl, rfl, rfl⟩
  · exact ⟨rfl, rfl, rfl, rfl, rfl⟩

/-- A string entry that is there after the free was there before. -/
theorem baseFree_stringPtr {o : Addr} {s : TsAddr} {ob : TsObj}
    (hts : w.tsOf o = some s) (ho : w.shared.get s = some ob)
    (hres : w.resolve t s = some o) (hu : w.baseFree t o = some w')
    {s' : TsAddr} {k : Key} {owner : ThreadId} {p : StrPtr} {b : Bytes}
    (he : w'.entry s' k = some (.stringPtr owner p b)) :
    w.entry s' k = some (.stringPtr owner p b) ∧ (s' = s → owner ≠ t) := by
  rcases baseFree_entry hts ho hres hu s' k with h | ⟨h, hd⟩
  · rw [h] at he
    split at he
    case isTrue => cases he
    case isFalse hss => exact ⟨he, fun hs' => absurd hs' hss⟩
  · rw [h] at he
    split at he
    case isTrue hss =>
      obtain ⟨st, hst, hp⟩ := Option.map_eq_some_iff.mp he
      obtain ⟨hne, heq⟩ := persistStorage_stringPtr (hd st hst) hp
      exact ⟨by rw [hss, hst, heq], fun _ => hne⟩
    case isFalse hss => exact ⟨he, fun hs' => absurd hs' hss⟩

/-- What a thread holds and is not freed is still there. -/
theorem Held.freed {o : Addr} (hmem : w'.mem = w.mem.free o)
    (hstr : w'.strings = w.strings) (hcl : w'.closures = w.closures) {v : Zval}
    (hv : Held w t v) (hne : ∀ l, v = .object l → l ≠ o) : Held w' t v := by
  cases v with
  | object l =>
      obtain ⟨z, hz, ho⟩ := hv
      refine ⟨z, ?_, ho⟩
      rw [hmem, Heap.get_free, if_neg (hne l rfl)]
      exact hz
  | string p =>
      obtain ⟨b, hb⟩ := hv
      exact ⟨b, by rw [hstr]; exact hb⟩
  | closure p =>
      obtain ⟨cl, hc⟩ := hv
      exact ⟨cl, by rw [hcl]; exact hc⟩
  | _ => trivial

/-- An object goes after its strings were persisted. -/
theorem free_own (hs : Skel w) (h : OwnOf w t) {o : Addr}
    {batch : List Addr} (hf : w.frame t = .freeing (o :: batch))
    (hu : w.baseFree t o = some w') {f : Frame} (hb : f.batch = batch)
    (hneutral : (∀ c k v, f ≠ .fill c k v) ∧ (∀ c k, f ≠ .drop c k)
      ∧ FrameHeld w' t f) :
    By t w w' ∧ OwnOf (w'.setFrame t f) t := by
  have hfo := hs.frames t
  rw [hf] at hfo
  obtain ⟨z, s, hz, ho, hts⟩ := hfo.2 o List.mem_cons_self
  obtain ⟨ob, hob⟩ := hs.tsLive hz hts
  have hres : w.resolve t s = some o := ho ▸ hs.resolveAll hz hts
  have htsOf : w.tsOf o = some s :=
    (tsOf_of_get hz).trans hts
  obtain ⟨hmem, hstr, hcl, hfr, hgl⟩ := baseFree_mem htsOf hob hres hu
  have hget : ∀ c, w'.mem.get c = if c = o then none else w.mem.get c := by
    intro c
    rw [hmem, Heap.get_free]
  have hsafe : ∀ {v}, Safe w t v → Safe (w'.setFrame t f) t v := by
    intro v hv
    have hbatch : ∀ l, v = .object l → l ≠ o ∧ l ∉ batch := by
      intro l hl
      have := hv.2 l hl
      rw [hf] at this
      exact ⟨fun h => this (h ▸ List.mem_cons_self),
        fun h => this (List.mem_cons_of_mem _ h)⟩
    refine ⟨hv.1.freed hmem hstr hcl fun l hl => (hbatch l hl).1,
      fun l hl => ?_⟩
    rw [frame_setFrame, hb]
    exact (hbatch l hl).2
  have hout : ∀ {c z'}, w'.mem.get c = some z' →
      c ∉ ((w'.setFrame t f).frame t).batch →
      w.mem.get c = some z' ∧ c ∉ (w.frame t).batch := by
    intro c z' hz' hc
    rw [hget] at hz'
    rw [frame_setFrame, hb] at hc
    split at hz'
    · cases hz'
    case isFalse hco =>
      rw [hf]
      exact ⟨hz', fun hmem => (List.mem_cons.mp hmem).elim hco hc⟩
  refine ⟨⟨fun {c z'} hz' _ => ?_, fun {c z'} hz' ho' => ?_,
    fun _ => by rw [hfr], fun ht => ?_, fun hp => by rw [hstr]; exact hp,
    fun p cl hc => ⟨cl.live, by rw [hcl]; exact hc⟩,
    fun _ he => (baseFree_stringPtr htsOf hob hres hu he).1⟩, ?_⟩
  · rw [hget] at hz'
    split at hz'
    · cases hz'
    · exact hz'
  · rw [hget, if_neg]
    · exact hz'
    · intro hc
      rw [hc, hz] at hz'
      exact ho' (Option.some.inj hz' ▸ ho)
  · rw [hgl]
    unfold globalsWithout
    split
    · exact Function.update_of_ne ht _ _
    · rfl
  refine ⟨fun hz' ho' hc hv => ?_, fun hz' ho' hc hl => ?_, ?_,
    fun {g} hg => ?_, fun {s' k p b} he => ?_⟩
  · obtain ⟨hz', hc⟩ := hout hz' hc
    exact hsafe (h.cached hz' ho' hc hv)
  · obtain ⟨hz', hc⟩ := hout hz' hc
    exact hsafe (h.gc hz' ho' hc hl)
  · rw [frame_setFrame]
    exact hneutral.2.2
  · change w'.threadSharedGlobals t = some g at hg
    rw [hgl] at hg
    unfold globalsWithout at hg
    split at hg
    case isTrue =>
      rw [Function.update_self] at hg
      cases hg
    case isFalse hne =>
      refine (h.globals hg).freed hmem hstr hcl fun l hl hlo => ?_
      injection hl with hl
      rw [hg, hl, hlo] at hne
      exact hne rfl
  · obtain ⟨he, hss⟩ := baseFree_stringPtr htsOf hob hres hu he
    obtain ⟨hp, c, zc, hzc, hoc, htsc, hk⟩ := h.strings he
    refine ⟨by show w'.strings.get p = _; rw [hstr]; exact hp, c, zc, ?_,
      hoc, htsc, ?_⟩
    · show w'.mem.get c = some zc
      rw [hget, if_neg]
      · exact hzc
      · intro hco
        rw [hco, hz] at hzc
        rw [← Option.some.inj hzc, hts] at htsc
        exact hss (Option.some.inj htsc).symm rfl
    · rw [frame_setFrame]
      refine ⟨Or.inl ?_, fun v hv => absurd hv (hneutral.1 c k v),
        hneutral.2.1 c k⟩
      rcases hk.kept with hc | hc
      · exact hc
      · rw [hf] at hc
        cases hc

-- ============================================ strings and closures go

/-- A string may go when no object of its thread holds it. -/
theorem canFreeString_spec {p : StrPtr} (h : w.canFreeString p = true) :
    (∀ s, w.strings.get p = some s → w.frame s.owner = .idle)
      ∧ ∀ {c z}, w.mem.get c = some z → z.holdsString p = false := by
  unfold canFreeString at h
  rw [Bool.and_eq_true, List.all_eq_true] at h
  obtain ⟨hidle, hcells⟩ := h
  refine ⟨fun s hs => ?_, fun {c z} hz => ?_⟩
  · rw [hs] at hidle
    exact isIdle_iff.mp hidle
  · have := hcells ⟨c, z⟩ (mem_entries_of_get hz)
    rw [Bool.not_eq_true'] at this
    exact this

/-- A string that no table holds and no busy thread can be holding is
not one the invariant speaks of. -/
theorem OwnOf.freeString (h : OwnOf w t) {q : StrPtr}
    (hq : w.canFreeString q = true) :
    OwnOf { w with strings := w.strings.free q } t := by
  obtain ⟨hidle, hnot⟩ := canFreeString_spec hq
  have hkeep : ∀ {p s}, w.strings.get p = some s → p ≠ q →
      (w.strings.free q).get p = some s := by
    intro p s hp hne
    rw [Heap.get_free, if_neg hne]
    exact hp
  have hheld : ∀ {v}, Held w t v → (∀ p, v = .string p → p ≠ q) →
      Held { w with strings := w.strings.free q } t v := by
    intro v hv hne
    cases v with
    | string p =>
        obtain ⟨b, hb⟩ := hv
        exact ⟨b, hkeep hb (hne p rfl)⟩
    | _ => exact hv
  -- a thread whose frame is not idle owns no string that goes
  have hbusy : ∀ {v}, w.frame t ≠ .idle → Held w t v →
      Held { w with strings := w.strings.free q } t v := by
    intro v hf hv
    refine hheld hv fun p hp hpq => ?_
    rw [hp] at hv
    obtain ⟨b, hb⟩ := hv
    exact hf (hidle ⟨t, b⟩ (hpq ▸ hb))
  refine ⟨fun hz ho hb hv => ?_, fun hz ho hb hl => ?_, ?_, fun hg => ?_,
    fun {s k p b} he => ?_⟩
  · obtain ⟨hh, hs⟩ := h.cached hz ho hb hv
    refine ⟨hheld hh fun p hp hpq => ?_, hs⟩
    rw [hp] at hv
    have := holdsString_of_cached hv
    rw [hpq, hnot hz] at this
    cases this
  · obtain ⟨hh, hs⟩ := h.gc hz ho hb hl
    exact ⟨hheld hh (fun _ hp => (nomatch hp)), hs⟩
  · have hfr := h.frame
    show FrameHeld _ t (w.frame t)
    by_cases hf : w.frame t = .idle
    · rw [hf]
      trivial
    · exact hfr.mono (hbusy hf)
  · exact hheld (h.globals hg) (fun _ hp => (nomatch hp))
  · obtain ⟨hp, c, z, hz, ho, hts, hk⟩ := h.strings he
    refine ⟨hkeep hp fun hpq => ?_, c, z, hz, ho, hts, hk⟩
    have hf := hidle ⟨t, b⟩ (hpq ▸ hp)
    rcases hk.kept with hc | hc
    · have := holdsString_of_cached hc
      rw [hpq, hnot hz] at this
      cases this
    · change w.frame t = .idle at hf
      rw [hf] at hc
      cases hc

theorem closuresStay_freeClosure (w : World) (p : ClosurePtr) :
    ClosuresStay w (w.freeClosure p) := by
  intro q cl hcl
  show ∃ live, (w.closures.modify p _)[q]? = _
  rw [List.getElem?_modify, hcl]
  by_cases hq : p = q
  · simp only [if_pos hq]
    exact ⟨false, rfl⟩
  · simp only [if_neg hq]
    exact ⟨cl.live, rfl⟩

theorem OwnOf.freeClosure (h : OwnOf w t) (p : ClosurePtr) :
    OwnOf (w.freeClosure p) t :=
  -- as if another thread had done it
  h.by (a := t + 1)
    { By.refl (t + 1) w with closures := closuresStay_freeClosure w p }
    (Nat.ne_of_lt (Nat.lt_succ_self t))

-- ========================================================== every step

/-- The invariant of every thread. -/
def OwnInv (w : World) : Prop := ∀ t, OwnOf w t

/-- What a step does to its own thread, and that others do not notice. -/
theorem OwnInv.by (h : OwnInv w) (hby : By a w w') (ha : OwnOf w' a) :
    OwnInv w' := by
  intro t
  by_cases ht : t = a
  · exact ht ▸ ha
  · exact (h t).by hby ht

theorem OwnInv.grow (h : OwnInv w) (hg : Grow E a w w') : OwnInv w' :=
  fun t => (h t).grow hg

/-- A read syncs first, whatever it reads. -/
theorem cached_readSync (w : World) (x : Conn) (k : Key) :
    (w.readSync x).cached k
      = (w.syncLocal x.z.owner x.o.props x.z.loc).cached k := by
  unfold readSync
  cases hp : x.z.loc.props with
  | some h => rfl
  | none =>
      have hn : x.z.loc.cached k = none := by
        unfold Local.cached Local.table
        rw [hp]
        rfl
      rw [cached_syncLocal]
      simp only [hn, Option.filter_none, ite_self]

/-- A thread gets its own string back, not a copy. -/
theorem restoreZval_ownString {p : StrPtr} {b : Bytes} {v : Zval} {u : World}
    (h : w.restoreZval E t (.stringPtr t p b) = (.value v, u)) :
    v = .string p := by
  change w.restoreStringPtr E t t p = _ at h
  unfold restoreStringPtr at h
  split at h
  · cases h
  · rw [if_pos rfl] at h
    obtain ⟨h1, -⟩ := Prod.mk.inj h
    injection h1 with h1
    exact h1.symm

/-- The connection after additions. -/
theorem Grow.conn (h : Grow E a w w') {c : Addr} {x : Conn}
    (hx : w.conn c = some x) :
    ∃ n, w'.conn c = some ⟨x.z, x.s, { x.o with refcount := n }⟩ := by
  obtain ⟨hz, hts, ho⟩ := conn_eq_some.mp hx
  obtain ⟨n, hn⟩ := h.extends.shared ho
  exact ⟨n, conn_eq_some.mpr ⟨h.mem hz, hts, hn⟩⟩

/-- What was restored is cached, and nothing else changes. -/
theorem cached_putAll (declared : List Key) (vs : List (Key × Zval)) :
    ∀ (l : Local) (k : Key),
      (∀ v, (putAll declared l vs).cached k = some v →
        l.cached k = some v ∨ (k, v) ∈ vs)
      ∧ (k ∉ vs.map Prod.fst →
        (putAll declared l vs).cached k = l.cached k) := by
  induction vs with
  | nil => exact fun l k => ⟨fun v h => Or.inl h, fun _ => rfl⟩
  | cons e vs ih =>
      intro l k
      obtain ⟨h1, h2⟩ := ih (l.put declared e.1 e.2) k
      refine ⟨fun v hv => ?_, fun hk => ?_⟩
      · rcases h1 v hv with h | h
        · rw [Local.cached_put] at h
          split at h
          case isTrue hke =>
            rw [Option.filter_eq_some_iff] at h
            rw [← Option.some.inj h.1, hke]
            exact Or.inr List.mem_cons_self
          case isFalse => exact Or.inl h
        · exact Or.inr (List.mem_cons_of_mem _ h)
      · rw [List.map_cons, List.mem_cons, not_or] at hk
        refine (h2 hk.2).trans ?_
        rw [Local.cached_put, if_neg hk.1]

theorem cached_addIndirect (declared : List Key) (l : Local) (k : Key) :
    (addIndirect declared l).cached k = l.cached k := by
  have hgen : ∀ (ds : List Key) (l : Local),
      (ds.foldl (fun l k => if l.table.contains k then l
        else l.put declared k .indirect) l).cached k = l.cached k := by
    intro ds
    induction ds with
    | nil => exact fun _ => rfl
    | cons d ds ih =>
        intro l
        rw [List.foldl_cons, ih]
        split
        · rfl
        case isFalse hn =>
          rw [Local.cached_put]
          split
          case isTrue hk =>
            unfold HashTable.contains at hn
            unfold Local.cached
            rw [hk]
            cases hf : l.table.find d with
            | none => rfl
            | some v => rw [hf] at hn; exact absurd rfl hn
          case isFalse => rfl
  exact hgen declared l

theorem restoreAll_keys (es : List (Key × Storage)) :
    ∀ {w : World} {r}, w.restoreAll E t es = some r →
      r.1.map Prod.fst = es.map Prod.fst := by
  induction es with
  | nil =>
      intro w r h
      injection h with h
      rw [← h]
      rfl
  | cons e es ih =>
      intro w r h
      unfold restoreAll at h
      split at h
      case h_1 => cases h
      case h_2 =>
        obtain ⟨rs, hrs, rfl⟩ := Option.map_eq_some_iff.mp h
        simp only [List.map_cons, ih hrs]

/-- The local table that tohash leaves, key by key: what the sync left,
or a restored value where the sync left none. -/
theorem cached_tohash {x : Conn} {own : Bool}
    {r : List (Key × Zval) × World} {l : Local}
    (hr : w.restoreAll E x.z.owner
      (uncached (w.tohashSync x) x.o.props.hash) = some r)
    (hl : l = w.tohashSync x
      ∨ own = true ∧ l = { addIndirect x.z.declared
          (putAll x.z.declared (w.tohashSync x) r.1) with
          modcount := x.o.props.modcount - 1 }) (k : Key) :
    (∀ v, (w.tohashSync x).cached k = some v → l.cached k = some v)
      ∧ ∀ v, l.cached k = some v → (w.tohashSync x).cached k = some v
        ∨ l.modcount = x.o.props.modcount - 1 ∧ (k, v) ∈ r.1 := by
  rcases hl with rfl | ⟨-, rfl⟩
  · exact ⟨fun v h => h, fun v h => Or.inl h⟩
  · have hc : ∀ l : Local, ({ addIndirect x.z.declared l with
        modcount := x.o.props.modcount - 1 } : Local).cached k
        = l.cached k := fun l => cached_addIndirect _ l k
    obtain ⟨h1, h2⟩ := cached_putAll x.z.declared r.1 (w.tohashSync x) k
    refine ⟨fun v hv => ?_, fun v hv => ?_⟩
    · rw [hc, h2]
      · exact hv
      · rw [restoreAll_keys _ hr]
        intro hm
        obtain ⟨e, he, hk⟩ := List.mem_map.mp hm
        unfold uncached at he
        rw [List.mem_filter, hk, hv] at he
        cases he.2
    · rw [hc] at hv
      exact (h1 v hv).imp_right fun h => ⟨rfl, h⟩

/-- Building the property table begins with a sync as well. -/
theorem cached_tohashSync (w : World) (x : Conn) (k : Key) :
    (w.tohashSync x).cached k
      = (w.syncLocal x.z.owner x.o.props x.z.loc).cached k := by
  unfold tohashSync
  rw [cached_syncLocal, cached_syncLocal, Local.cached_initProps,
    Local.modcount_initProps]

/-- A thread that is about to call is inside no other call. -/
theorem within_ready {c : Addr} {x : Conn} (hx : w.ready c = some x) :
    Within c (w.frame x.z.owner) := by
  rw [(ready_eq_some.mp hx).2]
  trivial

/-- A connection that has synced. -/
theorem OwnInv.setSynced (h : OwnInv w) (hs : Skel w) {c : Addr} {x : Conn}
    {l : Local} (hx : w.ready c = some x)
    (hl : ∀ k, l.cached k
      = (w.syncLocal x.z.owner x.o.props x.z.loc).cached k) :
    OwnInv (w.setLocal c l) := by
  have hc := (ready_eq_some.mp hx).1
  exact h.by ((edit_setLocal (conn_eq_some.mp hc).1 l).by rfl
    (fun _ => rfl) fun _ h => h)
    ((h x.z.owner).syncLocal hs hc rfl (within_ready hx) hl)

/-- A mutator through the connection that only takes entries away. -/
theorem OwnInv.commitTrims (h : OwnInv w) (hs : Skel w) {c : Addr} {x : Conn}
    {u : World} {r : Local × Store Storage} {f : Frame}
    (hx : w.ready c = some x) (hg : Grow E x.z.owner w u) (hr : Trims x r)
    (hf : f = .idle ∨ ∃ k, f = .drop c k ∧ r.2.hash.find k = none) :
    OwnInv ((u.commit c x.s r).setFrame x.z.owner f) := by
  obtain ⟨hc, hidle⟩ := ready_eq_some.mp hx
  obtain ⟨n, hcu⟩ := hg.conn hc
  have hr' : Trims ⟨x.z, x.s, { x.o with refcount := n }⟩ r :=
    ⟨hr.find, hr.cached⟩
  have hfu : u.frame x.z.owner = .idle := by
    rw [hg.extends.frame]
    exact hidle
  exact (h.grow hg).by (hr'.by hcu f)
    (((h x.z.owner).grow hg).trims (hs.grow hg) hcu rfl hfu hr' hf)

/-- One that leaves no frame. -/
theorem OwnInv.commitIdle (h : OwnInv w) (hs : Skel w) {c : Addr} {x : Conn}
    {u : World} {r : Local × Store Storage} (hx : w.ready c = some x)
    (hg : Grow E x.z.owner w u) (hr : Trims x r) :
    OwnInv (u.commit c x.s r) := by
  have hself : (u.commit c x.s r).setFrame x.z.owner .idle
      = u.commit c x.s r := by
    refine setFrame_self ?_
    show u.frame x.z.owner = .idle
    rw [hg.extends.frame]
    exact (ready_eq_some.mp hx).2
  have := h.commitTrims hs hx hg hr (Or.inl rfl)
  rw [hself] at this
  exact this

/-- A read that has restored a value, before it is cached. -/
theorem OwnInv.readFill (h : OwnInv w) (hs : Skel w) {c : Addr} {x : Conn}
    {k : Key} {st : Storage} {v : Zval} {u : World}
    (hx : w.ready c = some x) (hst : x.o.props.hash.find k = some st)
    (hr : (w.setLocal c (w.readSync x)).restoreZval E x.z.owner st
      = (.value v, u)) :
    OwnInv (u.setFrame x.z.owner (.fill c k v)) := by
  obtain ⟨hc, hidle⟩ := ready_eq_some.mp hx
  obtain ⟨hz, hts, hos⟩ := conn_eq_some.mp hc
  have hown := h.setSynced hs hx (w.cached_readSync x)
  have hsl := hs.same (sameSkel_setLocal w c (w.readSync x)) rfl
  have hcl : (w.setLocal c (w.readSync x)).conn c
      = some ⟨{ x.z with loc := w.readSync x }, x.s, x.o⟩ := by
    refine conn_eq_some.mpr ⟨?_, hts, hos⟩
    rw [mem_setLocal, if_pos rfl, hz]
    rfl
  have hg := grow_of_restored hr (hs.connecting x.z.owner)
  obtain ⟨n, hcu⟩ := hg.conn hcl
  have hfu : u.frame x.z.owner = .idle := by
    rw [hg.extends.frame]
    exact hidle
  have hheld := restoreZval_held hsl
    ((hown x.z.owner).owned ((entry_eq hos k).trans hst)) hr
  refine (hown.grow hg).by (.setFrame u x.z.owner _)
    (((hown x.z.owner).grow hg).setFill (hsl.grow hg) hcu rfl hfu hheld
      fun p b hp => ?_)
  rw [show x.o.props.hash.find k = _ from hp] at hst
  rw [← Option.some.inj hst] at hr
  exact restoreZval_ownString hr

/-- The property table takes strings that the shared table has. -/
theorem OwnInv.tohash (h : OwnInv w) (hs : Skel w) {c : Addr} {x : Conn}
    {own : Bool} {r : List (Key × Zval) × World} {l : Local}
    (hx : w.ready c = some x)
    (hr : w.restoreAll E x.z.owner
      (uncached (w.tohashSync x) x.o.props.hash) = some r)
    (hl : l = w.tohashSync x
      ∨ own = true ∧ l = { addIndirect x.z.declared
          (putAll x.z.declared (w.tohashSync x) r.1) with
          modcount := x.o.props.modcount - 1 }) :
    OwnInv (r.2.setLocal c l) := by
  obtain ⟨hc, hidle⟩ := ready_eq_some.mp hx
  obtain ⟨hz, hts, hos⟩ := conn_eq_some.mp hc
  have hg := restoreAll_grow _ (hs.connecting x.z.owner) hr
  obtain ⟨n, hcu⟩ := hg.conn hc
  have hinu : Within c (r.2.frame x.z.owner) := by
    rw [hg.extends.frame]
    exact within_ready hx
  have hown := h.grow hg
  refine hown.by ((edit_setLocal (hg.mem hz) l).by rfl (fun _ => rfl)
    fun _ h => h) ((hown x.z.owner).setLocal (hs.grow hg) hcu rfl hinu
      (fun k v hv => ?_) fun k p b hk hv => ?_)
  · rcases (cached_tohash hr hl k).2 v hv with hv | ⟨-, hv⟩
    · rw [cached_tohashSync] at hv
      exact ((h x.z.owner).held_cached hz rfl (within_ready hx)
        (cached_of_syncLocal hv)).extends hg.extends
    · refine restoreAll_held _ hs (fun e he => ?_) hr (k, v) hv
      refine (h x.z.owner).owned (s := x.s) (k := e.1) ?_
      rw [entry_eq hos]
      exact HashTable.find_eq_some_iff.mpr (List.mem_filter.mp he).1
  · refine (cached_tohash hr hl k).1 _ ?_
    rw [cached_tohashSync]
    exact cached_syncLocal_of_keep hv hk (keepCached_own w _ p b)

/-- What one step preserves; `Reachable.own` is the run. -/
theorem step_own {act : Act} (hs : Skel w) (h : OwnInv w)
    (hstep : step E w act = some w') : OwnInv w' := by
  have hcon := fun t => hs.connecting t
  cases step_effect hstep with
  | newString _ => exact h.grow (.single (.string _))
  | freeString hq => exact fun t => (h t).freeString hq
  | newClosure _ =>
      exact h.grow (E := E) (a := 0) (.single (.closure _))
  | freeClosure => exact fun t => (h t).freeClosure _
  | @alloc t declared scope defaults hf hd =>
      refine h.by ((By.objectAlloc w declared).trans (.setFrame _ t _)) ?_
      refine ((h t).objectAlloc declared).setNeutral (fun c => ?_)
        (fun _ => trivial)
        fun d hd' => (held_of_holds (hd d hd')).objectAlloc declared
      show Within c (w.frame t)
      rw [hf]
      trivial
  | @ctor t o scope defaults u hf hu =>
      obtain ⟨hby, hown⟩ := ctor_own hs (h t) hf hu
      exact h.by (hby.trans (.setFrame u t _)) hown
  | @connect t o _ => exact h.grow (objectConnect_grow (hcon t) o)
  | @bindGlobals o x hx =>
      obtain ⟨hz, -, -⟩ := conn_eq_some.mp (ready_eq_some.mp hx).1
      refine h.by (a := x.z.owner) { By.refl x.z.owner w with
        globals := fun ht => Function.update_of_ne ht _ _ } ?_
      refine { h x.z.owner with globals := fun {g} hg => ?_ }
      change Function.update w.threadSharedGlobals x.z.owner (some o)
        x.z.owner = some g at hg
      rw [Function.update_self] at hg
      exact ⟨x.z, Option.some.inj hg ▸ hz, rfl⟩
  | @addGarbage x o cx co hx ho hown hbx hbo =>
      obtain ⟨hz, -, -⟩ := conn_eq_some.mp hx
      obtain ⟨hzo, -, -⟩ := conn_eq_some.mp ho
      refine h.by (By.setGc hz rfl (· ++ [o])) ((h cx.z.owner).setGc hz
        (· ++ [o]) fun l hl hb => ?_)
      rcases List.mem_append.mp hl with hl | hl
      · exact (h cx.z.owner).gc hz rfl hb hl
      · rw [List.mem_singleton.mp hl]
        refine ⟨⟨co.z, hzo, hown⟩, fun l' hl' => ?_⟩
        injection hl' with hl'
        exact hl' ▸ hbo
  | @collect x cx hx =>
      obtain ⟨hz, -, -⟩ := conn_eq_some.mp (ready_eq_some.mp hx).1
      exact h.by (By.setGc hz rfl List.tail) ((h cx.z.owner).setGc hz
        List.tail fun l hl hb =>
          (h cx.z.owner).gc hz rfl hb (List.mem_of_mem_tail hl))
  | @release t batch hb =>
      exact h.by (.setFrame w t _) ((h t).release hb)
  | @baseFree t o batch u hf hu =>
      obtain ⟨hby, hown⟩ := free_own hs (h t) hf hu
        (f := if batch.isEmpty then .idle else .freeing batch)
        (by
          split
          case isTrue he => rw [List.isEmpty_iff.mp he]; rfl
          case isFalse => rfl)
        (by
          split
          · exact ⟨fun _ _ _ h => (nomatch h), fun _ _ h => (nomatch h),
              trivial⟩
          · exact ⟨fun _ _ _ h => (nomatch h), fun _ _ h => (nomatch h),
              trivial⟩)
      exact h.by (hby.trans (.setFrame u t _)) hown
  | @readCached c k access x v hx hv =>
      exact h.setSynced hs hx (w.cached_readSync x)
  | @readNothing c k access x hx =>
      exact h.setSynced hs hx (w.cached_readSync x)
  | @readThrew c k access x st u hx hr =>
      have hg := grow_of_restored hr (hcon x.z.owner)
      exact (h.setSynced hs hx (w.cached_readSync x)).grow hg
  | readRestored hx _ hst hr => exact h.readFill hs hx hst hr
  | @write c key v x st hx hh hst =>
      obtain ⟨hc, hidle⟩ := ready_eq_some.mp hx
      obtain ⟨hz, hts, -⟩ := conn_eq_some.mp hc
      exact h.by ((By.commitWrite hc hst).trans (.setFrame _ _ _))
        ((h x.z.owner).write hc rfl (hs.only hz rfl hts) hidle key
          (held_of_holds hh) hst)
  | @delete c k x hx hk =>
      refine h.commitTrims (E := E) hs hx .refl (trims_delete x _ k)
        (Or.inr ⟨k, rfl, ?_⟩)
      rw [bumpIf_hash, Store.find_delete, if_pos rfl]
  | @deleteNothing c k x hx hk =>
      exact h.commitIdle (E := E) hs hx .refl (trims_delete x false k)
  | @fill t c k v hf =>
      have hfo := hs.frames t
      rw [hf] at hfo
      obtain ⟨z, s, hz, ho, hts⟩ := hfo
      exact h.by ((By.modify hz ho _).trans (.setFrame _ _ _))
        ((h t).fill hz ho hts (hs.only hz ho hts) hf)
  | @drop t c k hf =>
      have hfo := hs.frames t
      rw [hf] at hfo
      obtain ⟨z, s, hz, ho, hts⟩ := hfo
      exact h.by ((By.modify hz ho fun z => z.loc.del k).trans
        (.setFrame _ _ _)) ((h t).drop hz ho hts (hs.only hz ho hts) hf)
  | @take act c x e p r u hx ht hr _ =>
      have hg := grow_of_restored hr (hcon x.z.owner)
      exact h.commitIdle hs hx hg (trims_afterTake ht.takes)
  | takeNothing _ _ => exact h
  | @chunk c size x r hx hr =>
      exact h.commitIdle hs hx (restoreAll_grow _ (hcon x.z.owner) hr)
        (trims_afterChunk x size)
  | @merge c source overwrite x y es hx hy hes =>
      exact h.commitIdle (E := E) hs hx .refl (trims_afterMerge overwrite hes)
  | tohash hx hr hl => exact h.tohash hs hx hr hl
  | @sync c x hx => exact h.setSynced hs hx fun _ => rfl
  | @fullSync c x fuel u hx hu =>
      obtain ⟨hc, hidle⟩ := ready_eq_some.mp hx
      have hsy := (fullSync_syncs visits_own fuel
        ⟨hs, h x.z.owner, hidle⟩ ⟨x.z, (conn_eq_some.mp hc).1, rfl⟩ hu).1
      exact h.by (hsy.by hs) ((h x.z.owner).syncs hs hidle hsy)
  | @join x cx fuel u hx hu =>
      obtain ⟨hc, hidle⟩ := ready_eq_some.mp hx
      have hsy := joinSync_syncs visits_own ⟨hs, h cx.z.owner, hidle⟩
        ⟨cx.z, (conn_eq_some.mp hc).1, rfl⟩
        (fun g hg => (h cx.z.owner).globals hg) hu
      exact h.by (hsy.by hs) ((h cx.z.owner).syncs hs hidle hsy)

theorem Reachable.own (h : Reachable E w) : OwnInv w := by
  have := h.induct (P := fun w => Skel w ∧ OwnInv w) ⟨skel_init, ownOf_init⟩
    fun _ _ _ hp hstep => ⟨step_skel hp.1 hstep, step_own hp.1 hp.2 hstep⟩
  exact this.2

-- ===================================================== what is restored

/-- A string pointer whose string is there restores to the bytes, in the
heap of the thread that restores it. -/
theorem restoreZval_bytes {owner : ThreadId} {p : StrPtr} {b : Bytes}
    (hp : w.strings.get p = some ⟨owner, b⟩) (t : ThreadId) :
    ∃ q u, w.restoreZval E t (.stringPtr owner p b) = (.value (.string q), u)
      ∧ u.strings.get q = some ⟨t, b⟩ := by
  show ∃ q u, w.restoreStringPtr E t owner p = _ ∧ _
  unfold restoreStringPtr
  rw [hp]
  by_cases ho : owner = t
  · refine ⟨p, w, ?_, ho ▸ hp⟩
    simp only [if_pos ho]
  · refine ⟨(w.newString E t b).1, (w.newString E t b).2, ?_,
      Heap.get_place_self w.strings _ ⟨t, b⟩⟩
    simp only [if_neg ho]

/-- Single-copy strings do not dangle. In every reachable world, a string
pointer `p` of thread `owner` under `k` in the shared table of `s` is
backed by a live connection of that thread to `s` whose local table has
`p` under `k`, or the thread is inside the call that is about to put it
there. The bytes that were written are there, and they are what any
thread restores, also after other restored values, and what a hard copy
and the persisting of a free read. -/
theorem single_copy_strings (E : Engine) (w : World) (h : Reachable E w)
    (s : TsAddr) (k : Key) (owner : ThreadId) (p : StrPtr) (b : Bytes)
    (he : w.entry s k = some (.stringPtr owner p b)) :
    (∃ c z, w.mem.get c = some z ∧ z.owner = owner ∧ z.tsObj = some s
        ∧ (z.loc.cached k = some (.string p)
          ∨ w.frame owner = .fill c k (.string p)))
      ∧ w.strings.get p = some ⟨owner, b⟩
      ∧ (∀ t v, Grow E t w v → ∃ q u,
          v.restoreZval E t (.stringPtr owner p b) = (.value (.string q), u)
            ∧ u.strings.get q = some ⟨t, b⟩)
      ∧ w.hardCopyStorage (.stringPtr owner p b) = some (.string false b)
      ∧ w.persistStorage owner (.stringPtr owner p b) = .string false b := by
  obtain ⟨hp, c, z, hz, ho, hts, hk⟩ := (h.own owner).strings he
  refine ⟨⟨c, z, hz, ho, hts, hk.kept⟩, hp, fun t v hg =>
    restoreZval_bytes (hg.extends.strings hp) t, ?_, ?_⟩
  · show (w.strings.get p).map _ = _
    rw [hp]
    rfl
  · show (if owner = owner then _ else _) = _
    rw [if_pos rfl, hp]

/-- Thread 1 makes an object and a string, stores the string under key 0
and is done with the write. -/
def storeString : List Act :=
  [.alloc 1 [] .threaded [], .ctor 1, .newString 1 [104, 105],
    .write 1 (some (.long 0)) (.string 1), .finish 1]

theorem single_copy_strings_storeString :
    ∃ w, run (demoEngine .bump) init storeString = some w
      ∧ w.entry 1 (.long 0) = some (.stringPtr 1 1 [104, 105])
      ∧ w.hardCopyStorage (.stringPtr 1 1 [104, 105])
        = some (.string false [104, 105]) := by
  have hentry : (run (demoEngine .bump) init storeString).map
      (fun w => w.entry 1 (.long 0))
      = some (some (.stringPtr 1 1 [104, 105])) := by
    decide
  obtain ⟨w, hw, he⟩ := Option.map_eq_some_iff.mp hentry
  obtain ⟨-, -, -, hcopy, -⟩ := single_copy_strings (demoEngine .bump) w
    ⟨_, hw⟩ 1 (.long 0) 1 1 [104, 105] he
  exact ⟨w, hw, he, hcopy⟩

end PmmpThread.Model.World
