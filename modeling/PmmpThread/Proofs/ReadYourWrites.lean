/-
Read your writes: when a read through a connection returns what was
written through it.

# Where the code goes wrong

`pmmpthread_store_write` bumps the modification count together with the
connection's own, so a connection that was in sync stays in sync and the
sync that follows does nothing. The local table is then changed only if
it retains the new value. A scalar or an enum case written over a value
that the table has cached leaves that value there, and the next read
finds it.

# What is shown

A value written under other conditions stays the answer of the
connection for as long as nobody writes or removes the key
(`Kept`): either the local table has nothing but this value under the
key, and has it for sure if the table is what keeps the value apart from
its copies (`pinned`), or the call is still about to put it there.
-/
import PmmpThread.Proofs.Modcounts

namespace PmmpThread.Model.World

open Zend

variable {E : Engine} {t : ThreadId} {w w' : World}

-- ================================================== values and storages

/-- The storage is the very value: a sync by thread `t` always keeps the
value for it. -/
def pinned (t : ThreadId) : Storage → Zval → Bool
  | .object a _, .object l => a == l
  | .closure p _ _, .closure q => p == q
  | .socket s, .socket s' => s == s'
  | .stringPtr owner p _, .string q => owner == t && p == q
  | _, _ => false

theorem keepCached_of_pinned {st : Storage} {v : Zval}
    (h : pinned t st v = true) (w : World) : w.keepCached t st v = true := by
  unfold pinned at h
  split at h
  · exact Bool.or_eq_true_iff.mpr (Or.inl h)
  · exact h
  · rw [beq_iff_eq.mp h]
    exact BEq.rfl
  · exact h
  · cases h

theorem retain_of_pinned {st : Storage} {v : Zval}
    (h : pinned t st v = true) : retainInLocalCache v = true := by
  unfold pinned at h
  split at h
  · rfl
  · rfl
  · rfl
  · rfl
  · cases h

/-- Restoring the storage on thread `t` gives exactly the value. -/
def Plain (E : Engine) (t : ThreadId) (st : Storage) (v : Zval) : Prop :=
  ∀ w : World, w.restoreZval E t st = (.value v, w)

/-- What a thread stores it gets back: from its local table, or by
restoring. -/
theorem pinned_or_plain {st : Storage} {v : Zval}
    (hh : w.holds E t v = true) (h : w.saveZval t v = some st) :
    pinned t st v = true ∨ Plain E t st v := by
  cases v with
  | string p =>
      obtain ⟨s, -, hs⟩ := Option.map_eq_some_iff.mp h
      rw [← hs]
      refine Or.inl ?_
      show (t == t && p == p) = true
      rw [BEq.rfl, BEq.rfl]
      rfl
  | closure p =>
      obtain ⟨cl, -, hcl⟩ := Option.bind_eq_some_iff.mp h
      split at hcl
      · rw [← Option.some.inj hcl]
        exact Or.inl (beq_self_eq_true p)
      · cases hcl
  | object a =>
      obtain ⟨b, -, hb⟩ := Option.map_eq_some_iff.mp h
      rw [← hb]
      exact Or.inl (beq_self_eq_true a)
  | socket s =>
      rw [← Option.some.inj h]
      exact Or.inl (beq_self_eq_true s)
  | enumCase cls name =>
      rw [← Option.some.inj h]
      refine Or.inr fun u => ?_
      change E.enumResolves t cls name = true at hh
      show (if E.enumResolves t cls name = true then _ else _) = _
      rw [if_pos hh]
  | undef => cases h
  | other => cases h
  | indirect => cases h
  | _ =>
      rw [← Option.some.inj h]
      exact Or.inr fun u => rfl

/-- A sync drops whatever is cached for a value that tables do not
retain. -/
theorem keepCached_saved {st : Storage} {v v' : Zval} {u : World}
    (h : w.saveZval t v = some st) (hv : retainInLocalCache v = false) :
    u.keepCached t st v' = false := by
  cases v with
  | null | bool _ | long _ | double _ | enumCase _ _ =>
      rw [← Option.some.inj h]
      rfl
  | undef | other | indirect => cases h
  | string _ | closure _ | object _ | socket _ | interned _ => cases hv

theorem restoreAll_mem (es : List (Key × Storage)) :
    ∀ {w : World} {r}, w.restoreAll E t es = some r → ∀ {k v},
      (k, v) ∈ r.1 → ∃ st u, (k, st) ∈ es
        ∧ v = (World.restoreZval E u t st).1.zval := by
  induction es with
  | nil =>
      intro w r h k v hv
      rw [← Option.some.inj h] at hv
      cases hv
  | cons e es ih =>
      intro w r h k v hv
      unfold restoreAll at h
      split at h
      case h_1 => cases h
      case h_2 q u _ hres =>
        obtain ⟨r', hr', hr⟩ := Option.map_eq_some_iff.mp h
        rw [← hr] at hv
        rcases List.mem_cons.mp hv with heq | hv
        · injection heq with hk hvv
          refine ⟨e.2, w, ?_, ?_⟩
          · rw [hk]
            exact List.mem_cons_self
          · rw [hvv, hres]
        · obtain ⟨st, u', hst, hvv⟩ := ih hr' hv
          exact ⟨st, u', List.mem_cons_of_mem _ hst, hvv⟩

-- ================================================= one key of one table

/-- Under `k` the local table has nothing but `v`, and has it if the
value is pinned. -/
structure Answers (t : ThreadId) (st : Storage) (v : Zval) (l : Local)
    (k : Key) : Prop where
  only : ∀ {v'}, l.cached k = some v' → v' = v
  has : pinned t st v = true → l.cached k = some v

theorem Answers.of_eq {st : Storage} {v : Zval} {l l' : Local} {k : Key}
    (h : Answers t st v l k) (hl : l'.cached k = l.cached k) :
    Answers t st v l' k :=
  ⟨fun hv => h.only (hl ▸ hv), fun hp => hl.trans (h.has hp)⟩

theorem Answers.sync {st : Storage} {v : Zval} {l : Local} {k : Key}
    (h : Answers t st v l k) {p : Store Storage}
    (hst : p.hash.find k = some st) :
    Answers t st v (w.syncLocal t p l) k :=
  ⟨fun hv => h.only (cached_of_syncLocal hv), fun hp =>
    cached_syncLocal_of_keep (h.has hp) hst (keepCached_of_pinned hp w)⟩

/-- Putting the value under `k` is right for `k`, and putting anything
under another key does not matter. -/
theorem Answers.put {st : Storage} {v v' : Zval} {l : Local} {k k' : Key}
    (h : Answers t st v l k) (d : List Key) (hv : k' = k → v' = v) :
    Answers t st v (l.put d k' v') k := by
  by_cases hk : k' = k
  · rw [hv hk, hk]
    refine ⟨fun {v''} hv'' => ?_, fun hp => ?_⟩
    · rw [Local.cached_put, if_pos rfl] at hv''
      exact (Option.some.inj (Option.filter_eq_some_iff.mp hv'').1).symm
    · rw [Local.cached_put, if_pos rfl]
      exact Local.valid_of_retain (retain_of_pinned hp)
  · refine h.of_eq ?_
    rw [Local.cached_put, if_neg fun he => hk he.symm]

/-- What is restored for a storage whose value is not cached is the
value. -/
theorem Answers.restored {st : Storage} {v : Zval} {l : Local} {k : Key}
    (h : Answers t st v l k) (hn : l.cached k = none)
    (hpp : pinned t st v = true ∨ Plain E t st v) : Plain E t st v := by
  rcases hpp with hp | hp
  · rw [h.has hp] at hn
    cases hn
  · exact hp

/-- A full sync by the thread leaves the answer. -/
theorem Syncs.answers {own : ThreadId → Prop} (hsy : Syncs E t own w w')
    (hs : Skel w) {st : Storage} {v : Zval} {k : Key}
    (hpp : pinned t st v = true ∨ Plain E t st v) {c : Addr} :
    ∀ {x : Conn}, w.conn c = some x → x.z.owner = t →
      x.o.props.hash.find k = some st → Answers t st v x.z.loc k →
      ∀ {x' : Conn}, w'.conn c = some x' → Answers t st v x'.z.loc k := by
  induction hsy with
  | refl =>
      intro x hx ho hst h x' hx'
      rw [hx] at hx'
      rw [← Option.some.inj hx']
      exact h
  | @grow w u u' hu hg ih =>
      intro x hx ho hst h x' hx'
      obtain ⟨l, n, hxu⟩ := (hu.extends (hs.connecting t)).conn hx
      have ha := ih hs hx ho hst h hxu
      obtain ⟨n', hxg⟩ := Grow.conn (.single hg) hxu
      rw [hx'] at hxg
      rw [Option.some.inj hxg]
      exact ha
  | @sync w u c' y hu hy hoy ih =>
      intro x hx ho hst h x' hx'
      obtain ⟨l, n, hxu⟩ := (hu.extends (hs.connecting t)).conn hx
      have ha := ih hs hx ho hst h hxu
      obtain ⟨hzu, -, -⟩ := conn_eq_some.mp hxu
      obtain ⟨hz', -, -⟩ := conn_eq_some.mp hx'
      rw [mem_setLocal] at hz'
      split at hz'
      case isTrue hc =>
        rw [← hc, hxu] at hy
        have hyx := Option.some.inj hy
        rw [hzu, Option.map_some] at hz'
        rw [← Option.some.inj hz', ← hyx]
        refine Answers.of_eq ?_ (Local.cached_initProps _ _ k)
        exact ho ▸ ha.sync (w := u) hst
      case isFalse =>
        rw [hzu] at hz'
        rw [← Option.some.inj hz']
        exact ha
  | @put w u u₁ u₂ c' y k' st' r hu hy hoy hst' _ hn hr _ hu₂ hz ih ih' =>
      intro x hx ho hst h x' hx'
      have hsu := hs.syncs hu
      have hg := grow_of_restored hr (hsu.connecting t)
      obtain ⟨l, n, hxu⟩ := (hu.extends (hs.connecting t)).conn hx
      have ha := ih hs hx ho hst h hxu
      obtain ⟨n₁, hxu₁⟩ := hg.conn hxu
      have hsu₁ := hsu.grow hg
      obtain ⟨l₂, n₂, hxu₂⟩ := (hu₂.extends (hsu₁.connecting t)).conn hxu₁
      have ha₂ := ih' hsu₁ hxu₁ ho hst ha hxu₂
      obtain ⟨hzu₂, -, -⟩ := conn_eq_some.mp hxu₂
      obtain ⟨hz', -, -⟩ := conn_eq_some.mp hx'
      change (u₂.mem.modify c' _).get c = _ at hz'
      rw [Heap.get_modify, hzu₂] at hz'
      split at hz'
      case isTrue hc =>
        rw [← Option.some.inj hz']
        refine ha₂.put _ fun hk => ?_
        -- the entry restored is the one of the value
        rw [← hc, hxu] at hy
        have hyx := Option.some.inj hy
        rw [hk, ← hyx] at hst' hn
        have hplain := ha.restored hn hpp
        rw [← Option.some.inj (hst.symm.trans hst'), hplain] at hr
        injection hr with hr _
        rw [← hr]
        rfl
      case isFalse =>
        rw [← Option.some.inj hz']
        exact ha₂

-- ======================================================== the invariant

/-- A frame that is not about the key `k` of the connection `c`. -/
def NotAt (c : Addr) (k : Key) : Frame → Prop
  | .fill c' k' _ | .drop c' k' => c' = c → k' ≠ k
  | _ => True

/-- Under `k` the connection answers with `v`, now or when the pending
call has put it there. -/
structure Kept (w : World) (c : Addr) (x : Conn) (k : Key) (st : Storage)
    (v : Zval) : Prop where
  stored : x.o.props.hash.find k = some st
  table : NotAt c k (w.frame x.z.owner) ∧ Answers x.z.owner st v x.z.loc k
    ∨ w.frame x.z.owner = .fill c k v
      ∧ (retainInLocalCache v = true ∨ Answers x.z.owner st v x.z.loc k)

theorem Kept.answers {c : Addr} {x : Conn} {k : Key} {st : Storage}
    {v : Zval} (h : Kept w c x k st v)
    (hf : ∀ v', w.frame x.z.owner ≠ .fill c k v') :
    Answers x.z.owner st v x.z.loc k := by
  rcases h.table with ⟨-, ha⟩ | ⟨hf', -⟩
  · exact ha
  · exact absurd hf' (hf v)

theorem Off.notAt {c : Addr} {f : Frame} (h : Off c f) (k : Key) :
    NotAt c k f := by
  cases f with
  | fill c' k' v => exact fun hc => absurd hc h
  | drop c' k' => exact fun hc => absurd hc h
  | _ => trivial

theorem Off.ne_fill {c : Addr} {f : Frame} (h : Off c f) (k : Key)
    (v : Zval) : f ≠ .fill c k v := by
  intro hf
  rw [hf] at h
  exact h rfl

/-- The step neither writes nor removes the key `k` of `s`, and does not
free `c`. -/
def LeavesKey (c : Addr) (s : TsAddr) (k : Key) (w : World) (act : Act)
    (_ : World) : Prop :=
  ¬ touches w s k act ∧ ¬ freesAt w c act

/-- The local table and frame that a step leaves. -/
theorem ConnStep.kept {c : Addr} {x : Conn} {k : Key} {st : Storage}
    {v : Zval} {act : Act} {l : Local} {p : Store Storage} (hs : Skel w)
    (hpp : pinned x.z.owner st v = true ∨ Plain E x.z.owner st v)
    (hx : w.conn c = some x) (h : Kept w c x k st v)
    (hact : ¬ touches w x.s k act) (hc : ConnStep E w c x act w' l p)
    (hp : p.hash.find k = some st) :
    NotAt c k (w'.frame x.z.owner) ∧ Answers x.z.owner st v l k
      ∨ w'.frame x.z.owner = .fill c k v
        ∧ (retainInLocalCache v = true ∨ Answers x.z.owner st v l k) := by
  have hidle : w.frame x.z.owner = .idle →
      Answers x.z.owner st v x.z.loc k := by
    intro hi
    refine h.answers fun v' hf => ?_
    rw [hi] at hf
    cases hf
  have hnot : w'.frame x.z.owner = .idle →
      NotAt c k (w'.frame x.z.owner) := by
    intro hi
    rw [hi]
    trivial
  have hsync : w.frame x.z.owner = .idle → ∀ {l : Local}, l.cached k
        = (w.syncLocal x.z.owner x.o.props x.z.loc).cached k →
      Answers x.z.owner st v l k :=
    fun hi {l} hl => ((hidle hi).sync (w := w) h.stored).of_eq hl
  cases hc with
  | same hf =>
      rcases hf with hf | ⟨hoff, hoff'⟩
      · rw [hf]
        exact h.table
      · exact Or.inl ⟨hoff'.notAt k, h.answers (hoff.ne_fill k)⟩
  | read hi hf => exact Or.inl ⟨hnot hf, hsync hi (cached_readSync w x k)⟩
  | @readFill k' access u v' st' hi hn hst hr =>
      rw [frame_setFrame]
      have ha := hsync hi (cached_readSync w x k)
      by_cases hk : k' = k
      · rw [hk] at hn hst ⊢
        have hplain := ha.restored hn hpp
        rw [← Option.some.inj (h.stored.symm.trans hst), hplain] at hr
        injection hr with hv _
        injection hv with hv
        rw [← hv]
        exact Or.inr ⟨rfl, Or.inr ha⟩
      · exact Or.inl ⟨fun _ => hk, ha⟩
  | sync hi hf => exact Or.inl ⟨hnot hf, hsync hi rfl⟩
  | tohash hi hf hr hl =>
      refine Or.inl ⟨hnot hf, ?_⟩
      have ha := hsync hi (cached_tohashSync w x k)
      obtain ⟨hkeep, hback⟩ := cached_tohash hr hl k
      refine ⟨fun {v'} hv' => ?_, fun hp => hkeep v (ha.has hp)⟩
      rcases hback v' hv' with hv' | ⟨-, hv'⟩
      · exact ha.only hv'
      · obtain ⟨st', u, hst', hvr⟩ := restoreAll_mem _ hr hv'
        obtain ⟨hmem, hnone⟩ := List.mem_filter.mp hst'
        have hplain := ha.restored (Option.isNone_iff_eq_none.mp hnone) hpp
        rw [HashTable.find_eq_some_iff.mpr hmem] at hp
        rw [hvr, Option.some.inj hp, hplain]
        rfl
  | @write key v' st' w' hi hh hst hf =>
      have hk : x.o.props.member key ≠ k := by
        intro hk
        exact hact ⟨x, hx, rfl, hk⟩
      refine Or.inl ⟨?_, ?_⟩
      · rw [hf]
        exact fun _ => hk
      · have ha := hidle hi
        refine ⟨fun hv => ha.only (cached_writeStore hv), fun hpin => ?_⟩
        refine cached_syncLocal_of_keep ?_ hp (keepCached_of_pinned hpin w)
        rw [bumpIf_cached]
        exact ha.has hpin
  | trim hi _ _ hcached _ hf =>
      refine Or.inl ⟨?_, ?_⟩
      · rcases hf with hf | ⟨k', hf, htouch⟩
        · exact hnot hf
        · rw [hf]
          exact fun _ hk => hact (hk ▸ htouch)
      · rcases hcached k with heq | htouch
        · exact (hidle hi).of_eq heq
        · exact absurd htouch hact
  | @fill k' v' w' hi hf =>
      refine Or.inl ⟨hnot hf, ?_⟩
      rcases h.table with ⟨hn, ha⟩ | ⟨hfill, hr⟩
      · rw [hi] at hn
        refine ha.of_eq ?_
        rw [Local.cached_updateLocalProperty, if_neg]
        exact fun hk => hn rfl hk.1.symm
      · rw [hi] at hfill
        injection hfill with _ hk hv
        rw [hk, hv]
        rcases hr with hr | ha
        · have hcv : (x.z.loc.updateLocalProperty x.z.declared k v).cached k
              = some v := by
            rw [Local.cached_updateLocalProperty, if_pos ⟨rfl, hr⟩]
          refine ⟨fun {v''} hv'' => ?_, fun _ => hcv⟩
          rw [hcv] at hv''
          exact (Option.some.inj hv'').symm
        · unfold Local.updateLocalProperty
          split
          · exact ha.put _ fun _ => rfl
          · exact ha
  | @drop k' w' hi hf =>
      refine Or.inl ⟨hnot hf, ?_⟩
      rcases h.table with ⟨hn, ha⟩ | ⟨hfill, -⟩
      · rw [hi] at hn
        refine ha.of_eq ?_
        rw [Local.cached_del, if_neg fun hk => hn rfl hk.symm]
      · rw [hi] at hfill
        cases hfill
  | syncs hi _ hsy hl =>
      have hext := hsy.extends (hs.connecting _)
      refine Or.inl ⟨hnot (by rw [hext.frame]; exact hi), ?_⟩
      obtain ⟨l', n, hx'⟩ := hext.conn hx
      have ha := hsy.answers hs hpp hx rfl h.stored (hidle hi) hx'
      unfold locOf at hl
      rw [(conn_eq_some.mp hx').1] at hl
      rw [← Option.some.inj hl]
      exact ha

/-- A string pointer that a thread gets back exactly is its own. -/
theorem owner_of_stringPtr {owner : ThreadId} {q : StrPtr} {b : Bytes}
    {v : Zval} (h : pinned t (.stringPtr owner q b) v = true
      ∨ Plain E t (.stringPtr owner q b) v) : owner = t := by
  rcases h with h | h
  · unfold pinned at h
    split at h
    case h_4 owner' q' b' loc heq =>
      injection heq with howner _ _
      rw [howner]
      exact beq_iff_eq.mp (Bool.and_eq_true_iff.mp h).1
    case h_1 heq => cases heq
    case h_2 heq => cases heq
    case h_3 heq => cases heq
    case h_5 => cases h
  · cases h init

/-- A thread has one connection to a ts_obj, so a free of one is the
free of that. -/
theorem frees.at {act : Act} {owner : ThreadId} {c : Addr} {x : Conn}
    (hs : Skel w) (h : frees w x.s owner act) (hx : w.conn c = some x)
    (ho : owner = x.z.owner) : freesAt w c act := by
  obtain ⟨hact, o, batch, hf, hts⟩ := h
  obtain ⟨s, hts', hres, -⟩ := hs.freeing hf
  obtain ⟨hz, htsx, -⟩ := conn_eq_some.mp hx
  have hss : s = x.s := Option.some.inj (hts'.symm.trans hts)
  have hc := hs.resolveAll hz htsx
  rw [← ho, ← hss, hres] at hc
  rw [Option.some.inj hc] at hf
  exact ⟨owner, batch, hact, hf⟩

/-- What a step that leaves the key does to what the connection answers
for it. -/
theorem step_kept {c : Addr} {x : Conn} {k : Key} {st : Storage} {v : Zval}
    {act : Act} (hs : Skel w) (hown : OwnInv w)
    (hstep : step E w act = some w')
    (hpp : pinned x.z.owner st v = true ∨ Plain E x.z.owner st v)
    (hx : w.conn c = some x) (h : Kept w c x k st v)
    (hact : LeavesKey c x.s k w act w') :
    ∃ x', w'.conn c = some x' ∧ x'.z.owner = x.z.owner ∧ x'.s = x.s
      ∧ Kept w' c x' k st v := by
  rcases step_conn hs hown hstep hx with hf | ⟨x', hx', ho, hss, hst, -⟩
  · exact absurd hf hact.2
  · obtain ⟨-, -, -, hc⟩ := step_pair hs hown hstep hx hx'
    have hp : x'.o.props.hash.find k = some st := by
      rcases hst.quiet k hact.1 with heq | ⟨t, st₀, st', hfrees, hst₀, hper, -⟩
      · exact heq.trans h.stored
      · -- the storage is a string of the thread, so the step frees `c`
        obtain ⟨q, b, hq, -⟩ := hper
        rw [Option.some.inj (hst₀.symm.trans h.stored)] at hq
        rw [hq] at hpp
        exact absurd (frees.at hs hfrees hx (owner_of_stringPtr hpp)) hact.2
    exact ⟨x', hx', ho, hss, hp, by
      rw [ho]
      exact hc.kept hs hpp hx h hact.1 hp⟩

/-- And a whole run of such steps. -/
theorem run_kept {c : Addr} {s : TsAddr} {k : Key} {st : Storage} {v : Zval}
    (hpp : pinned t st v = true ∨ Plain E t st v) {acts : List Act}
    (hs : Skel w) (hown : OwnInv w) {x : Conn} (hx : w.conn c = some x)
    (ho : x.z.owner = t) (hxs : x.s = s) (h : Kept w c x k st v)
    (hall : AllSteps E (LeavesKey c s k) w acts)
    (hrun : run E w acts = some w') :
    ∃ x', w'.conn c = some x' ∧ x'.z.owner = t ∧ Kept w' c x' k st v := by
  have hinv := AllSteps.run_induct (E := E) (P := LeavesKey c s k)
    (I := fun w => Skel w ∧ OwnInv w ∧ ∃ x, w.conn c = some x
      ∧ x.z.owner = t ∧ x.s = s ∧ Kept w c x k st v)
    (fun w act w' hi hstep hp => by
      obtain ⟨hs, hown, x, hx, ho, hxs, hk⟩ := hi
      obtain ⟨x', hx', ho', hxs', hk'⟩ := step_kept hs hown hstep
        (by rw [ho]; exact hpp) hx hk (by rw [hxs]; exact hp)
      exact ⟨step_skel hs hstep, step_own hs hown hstep, x', hx',
        ho'.trans ho, hxs'.trans hxs, hk'⟩)
    acts ⟨hs, hown, x, hx, ho, hxs, h⟩ hall hrun
  obtain ⟨-, -, x', hx', ho', -, hk'⟩ := hinv
  exact ⟨x', hx', ho', hk'⟩

/-- The read answers with the value. -/
theorem Kept.read {c : Addr} {x : Conn} {k : Key} {st : Storage} {v : Zval}
    (h : Kept w c x k st v)
    (hpp : pinned x.z.owner st v = true ∨ Plain E x.z.owner st v)
    (hx : w.ready c = some x) {access : Access}
    (hacc : access.readOnly = true) :
    ∃ u, w.readLocked E c k access = (.cached v, u)
      ∨ w.readLocked E c k access = (.restored v, u) := by
  obtain ⟨hc, hi⟩ := ready_eq_some.mp hx
  have ha : Answers x.z.owner st v (w.readSync x) k := by
    refine ((h.answers fun v' hf => ?_).sync (w := w) h.stored).of_eq
      (cached_readSync w x k)
    rw [hi] at hf
    cases hf
  unfold readLocked
  simp only [hc]
  cases hv : (w.readSync x).cached k with
  | some v' =>
      rw [ha.only hv]
      exact ⟨_, Or.inl rfl⟩
  | none =>
      have hplain := ha.restored hv hpp
      refine ⟨w.setLocal c (w.readSync x), Or.inr ?_⟩
      simp only [readShared, h.stored, hacc, Bool.not_true, Bool.and_false,
        Bool.false_eq_true, if_false]
      rw [hplain (w.setLocal c (w.readSync x))]

-- ============================================================ the write

/-- What the connection is after the write has unlocked. -/
theorem step_write {c : Addr} {key : Option Key} {v : Zval} {x : Conn}
    (hx : w.conn c = some x)
    (hstep : step E w (.write c key v) = some w') :
    ∃ st x', w.holds E x.z.owner v = true
      ∧ w.saveZval x.z.owner v = some st ∧ w'.conn c = some x'
      ∧ x'.z.owner = x.z.owner ∧ x'.s = x.s
      ∧ x'.z.declared = x.z.declared
      ∧ x'.z.loc = (w.writeStore x.z.owner x.z.loc x.o.props key st).2.1
      ∧ x'.o.props = (w.writeStore x.z.owner x.z.loc x.o.props key st).2.2
      ∧ w'.frame x.z.owner = .fill c (x.o.props.member key) v := by
  cases step_effect hstep with
  | @write c' key' v' y st hy hh hst =>
      have hyx : y = x := by
        rw [(ready_eq_some.mp hy).1] at hx
        exact Option.some.inj hx
      subst hyx
      obtain ⟨hz, hts, ho⟩ := conn_eq_some.mp hx
      refine ⟨st, ⟨{ y.z with loc := (w.writeStore y.z.owner y.z.loc
        y.o.props key st).2.1 }, y.s, { y.o with props := (w.writeStore
          y.z.owner y.z.loc y.o.props key st).2.2 }⟩, hh, hst, ?_, rfl, rfl,
        rfl, rfl, rfl, frame_setFrame _ _ _⟩
      refine conn_eq_some.mpr ⟨?_, hts, ?_⟩
      · show (w.commit c y.s _).mem.get c = _
        rw [mem_commit, if_pos rfl, hz]
        rfl
      · show (w.commit c y.s _).shared.get y.s = _
        rw [shared_commit, if_pos rfl, ho]
        rfl
  | take _ ht _ _ => rcases ht with ⟨h, -⟩ | ⟨h, -⟩ <;> cases h
  | takeNothing hact _ => rcases hact with h | h <;> cases h

/-- The local table that a write leaves has the old value under the
written key exactly if the connection was in sync. -/
theorem cached_written {x : Conn} (key : Option Key) {v : Zval}
    {st : Storage} (hb : x.z.loc.modcount ≤ x.o.props.modcount)
    (hst : w.saveZval x.z.owner v = some st)
    (hv : retainInLocalCache v = false) :
    (w.writeStore x.z.owner x.z.loc x.o.props key st).2.1.cached
        (x.o.props.member key)
      = if x.z.loc.modcount = x.o.props.modcount then
          x.z.loc.cached (x.o.props.member key) else none := by
  have hbump := bumps_write x key st
  unfold writeStore
  simp only []
  rw [cached_syncLocal, bumpIf_cached]
  by_cases hm : x.z.loc.modcount = x.o.props.modcount
  · rw [if_pos hm, if_pos (hbump.inSync hm)]
  · have hlt := hbump.outOfSync (by omega)
    rw [if_neg hm, if_neg (by omega), bumpIf_hash, Store.find_write,
      if_pos rfl]
    cases x.z.loc.cached (x.o.props.member key) with
    | none => rfl
    | some v' =>
        rw [Option.filter_some, Option.map_some, Option.getD_some,
          keepCached_saved hst hv]
        rfl

/-- The value that a write through `c` puts under `k` is what a later
read through `c` returns: whatever run follows, as long as nobody writes
or removes the key and `c` lives. -/
def ReadBack (E : Engine) (w : World) (c : Addr) (s : TsAddr) (k : Key)
    (v : Zval) : Prop :=
  ∀ (acts : List Act) (w' : World), run E w acts = some w' →
    AllSteps E (LeavesKey c s k) w acts →
    ∀ y, w'.ready c = some y → ∀ access, access.readOnly = true →
      ∃ u, w'.readLocked E c k access = (.cached v, u)
        ∨ w'.readLocked E c k access = (.restored v, u)

/-- The write does not leave another value in the local table. -/
def Replaces (x : Conn) (k : Key) (v : Zval) : Prop :=
  retainInLocalCache v = true ∨ x.z.loc.modcount ≠ x.o.props.modcount
    ∨ x.z.loc.cached k = none ∨ x.z.loc.cached k = some v

theorem readBack_of_replaces (hs : Skel w) (hown : OwnInv w)
    (hb : Behind w) {c : Addr} {key : Option Key} {v : Zval} {x : Conn}
    (hx : w.conn c = some x)
    (hstep : step E w (.write c key v) = some w')
    (h : Replaces x (x.o.props.member key) v) :
    ReadBack E w' c x.s (x.o.props.member key) v := by
  obtain ⟨st, x', hh, hst, hx', ho, hss, -, hl, hp, hf⟩ :=
    step_write hx hstep
  have hpp := pinned_or_plain hh hst
  have hkept : Kept w' c x' (x.o.props.member key) st v := by
    refine ⟨?_, Or.inr ?_⟩
    · rw [hp, find_writeStore, if_pos rfl]
    · rw [ho, hl]
      refine ⟨hf, ?_⟩
      cases hv : retainInLocalCache v with
      | true => exact Or.inl rfl
      | false =>
          have hc := cached_written key (hb c x hx) hst hv
          refine Or.inr ⟨fun {v'} hv' => ?_, fun hpin => ?_⟩
          · rw [hc] at hv'
            split at hv'
            case isFalse => cases hv'
            case isTrue hm =>
              rcases h with h | h | h | h
              · rw [hv] at h
                cases h
              · exact absurd hm h
              · rw [h] at hv'
                cases hv'
              · rw [h] at hv'
                exact (Option.some.inj hv').symm
          · rw [retain_of_pinned hpin] at hv
            cases hv
  intro acts w'' hrun hall y hy access hacc
  obtain ⟨z, hz, hoz, hk⟩ := run_kept hpp (step_skel hs hstep)
    (step_own hs hown hstep) hx' ho hss hkept hall hrun
  have hyz : y = z := by
    rw [(ready_eq_some.mp hy).1] at hz
    exact Option.some.inj hz
  subst hyz
  exact hk.read (by rw [hoz]; exact hpp) hy hacc

/-- What the connection is when the call has finished. -/
theorem step_finish {c : Addr} {k : Key} {v : Zval} {x : Conn}
    (hx : w.conn c = some x) (hf : w.frame x.z.owner = .fill c k v) :
    ∃ w', step E w (.finish x.z.owner) = some w'
      ∧ w'.ready c = some ⟨{ x.z with
        loc := x.z.loc.updateLocalProperty x.z.declared k v }, x.s, x.o⟩ := by
  obtain ⟨hz, hts, ho⟩ := conn_eq_some.mp hx
  refine ⟨(w.updateLocalProperty c k v).setFrame x.z.owner .idle, ?_, ?_⟩
  · show w.finish x.z.owner = _
    unfold finish
    rw [hf]
  · refine ready_eq_some.mpr ⟨conn_eq_some.mpr ⟨?_, hts, ho⟩,
      frame_setFrame _ _ _⟩
    have hm := (edit_modify hz fun z =>
      z.loc.updateLocalProperty z.declared k v).mem c
    rw [if_pos rfl] at hm
    exact hm

/-- Otherwise the value that was cached before is what the very next
read returns. -/
theorem not_readBack (hb : Behind w) {c : Addr} {key : Option Key}
    {v : Zval} {x : Conn} (hx : w.conn c = some x)
    (hstep : step E w (.write c key v) = some w')
    (h : ¬ Replaces x (x.o.props.member key) v) :
    ¬ ReadBack E w' c x.s (x.o.props.member key) v := by
  obtain ⟨hv, h⟩ := not_or.mp h
  obtain ⟨hm, h⟩ := not_or.mp h
  obtain ⟨hn, hne⟩ := not_or.mp h
  have hm := Classical.not_not.mp hm
  have hv := Bool.eq_false_iff.mpr hv
  obtain ⟨old, hold⟩ := Option.ne_none_iff_exists'.mp hn
  obtain ⟨st, x', hh, hst, hx', ho, hss, hd, hl, hp, hf⟩ :=
    step_write hx hstep
  obtain ⟨w'', hfin, hready⟩ := step_finish (E := E) hx' (ho ▸ hf)
  intro hback
  obtain ⟨u, hread⟩ := hback [.finish x'.z.owner] w''
    (run_cons.mpr ⟨w'', hfin, rfl⟩)
    (fun u _ => ⟨⟨fun ht => ht, fun hfree => by
      obtain ⟨t, batch, hact, -⟩ := hfree
      cases hact⟩, trivial⟩) _ hready .r rfl
  -- the table is as the write left it, and in sync
  have htable : x'.z.loc.updateLocalProperty x'.z.declared
      (x.o.props.member key) v = x'.z.loc := by
    unfold Local.updateLocalProperty
    rw [if_neg (by rw [hv]; exact Bool.false_ne_true)]
  have hsync : x'.z.loc.modcount = x'.o.props.modcount := by
    rw [hl, hp]
    exact Local.modcount_sync _ _ _ _
  have hcached : x'.z.loc.cached (x.o.props.member key) = some old := by
    rw [hl, cached_written key (hb c x hx) hst hv, if_pos hm, hold]
  rw [htable] at hready
  have hans : (w''.readSync ⟨x'.z, x'.s, x'.o⟩).cached
      (x.o.props.member key) = some old := by
    rw [cached_readSync, cached_syncLocal, if_pos hsync]
    exact hcached
  unfold readLocked at hread
  simp only [(ready_eq_some.mp hready).1, hans] at hread
  rcases hread with hread | hread
  · injection hread with hread _
    injection hread with hread
    rw [hold, hread] at hne
    exact hne rfl
  · cases hread

/-- Read your writes, exactly. A read through `c` returns what was
written through it, in every run that leaves the key alone, if and only
if the table retains the value, or the connection was out of sync, or
the connection had nothing else cached under the key. -/
theorem read_your_writes_iff (E : Engine) (w w' : World)
    (h : Reachable E w) (c : Addr) (key : Option Key) (v : Zval) (x : Conn)
    (hx : w.conn c = some x)
    (hstep : step E w (.write c key v) = some w') :
    ReadBack E w' c x.s (x.o.props.member key) v
      ↔ Replaces x (x.o.props.member key) v := by
  refine ⟨fun hback => ?_, fun hrep => ?_⟩
  · exact Classical.not_not.mp fun hn =>
      not_readBack h.behind hx hstep hn hback
  · exact readBack_of_replaces h.skel h.own h.behind hx hstep hrep

/-- After a string is stored under key 0, a write of another string over
it is read back. -/
theorem read_your_writes_iff_storeString :
    ∃ w w' x, run (demoEngine .bump) init
        (storeString ++ [.newString 1 [98]]) = some w
      ∧ w.conn 1 = some x
      ∧ step (demoEngine .bump) w (.write 1 (some (.long 0)) (.string 2))
        = some w'
      ∧ ReadBack (demoEngine .bump) w' 1 x.s
        (x.o.props.member (some (.long 0))) (.string 2) := by
  have hview : (run (demoEngine .bump) init
      (storeString ++ [.newString 1 [98]])).map (fun w =>
        ((w.conn 1).isSome, (step (demoEngine .bump) w
          (.write 1 (some (.long 0)) (.string 2))).isSome))
      = some (true, true) := by
    decide
  obtain ⟨w, hw, hv⟩ := Option.map_eq_some_iff.mp hview
  obtain ⟨hc, hs⟩ := Prod.mk.inj hv
  obtain ⟨x, hx⟩ := Option.isSome_iff_exists.mp hc
  obtain ⟨w', hw'⟩ := Option.isSome_iff_exists.mp hs
  exact ⟨w, w', x, hw, hx, hw', (read_your_writes_iff (demoEngine .bump) w w'
    ⟨_, hw⟩ 1 (some (.long 0)) (.string 2) x hx hw').mpr (Or.inl rfl)⟩

/-- A null written over a stored string is not read back: the read
returns the string. -/
theorem stale_read_after_null :
    ¬ ∀ (E : Engine) (w w' : World) (c : Addr) (key : Option Key) (v : Zval)
        (x : Conn), Reachable E w → w.conn c = some x →
      step E w (.write c key v) = some w' →
      ReadBack E w' c x.s (x.o.props.member key) v := by
  intro h
  have hview : (run (demoEngine .bump) init storeString).bind (fun w =>
      (w.conn 1).bind fun x =>
      (step (demoEngine .bump) w (.write 1 (some (.long 0)) .null)).bind
        fun w' => (step (demoEngine .bump) w' (.finish 1)).map fun w'' =>
          (x.o.props.member (some (.long 0)), (w''.ready 1).isSome,
            (w''.readLocked (demoEngine .bump) 1 (.long 0) .r).1))
      = some (.long 0, true, .cached (.string 1)) := by
    decide
  obtain ⟨w, hw, hv⟩ := Option.bind_eq_some_iff.mp hview
  obtain ⟨x, hx, hv⟩ := Option.bind_eq_some_iff.mp hv
  obtain ⟨w', hw', hv⟩ := Option.bind_eq_some_iff.mp hv
  obtain ⟨w'', hw'', hv⟩ := Option.map_eq_some_iff.mp hv
  obtain ⟨hk, hv⟩ := Prod.mk.inj hv
  obtain ⟨hy, hread⟩ := Prod.mk.inj hv
  obtain ⟨y, hy⟩ := Option.isSome_iff_exists.mp hy
  obtain ⟨u, hu⟩ := h (demoEngine .bump) w w' 1 (some (.long 0)) .null x
    ⟨_, hw⟩ hx hw' [.finish 1] w'' (run_cons.mpr ⟨w'', hw'', rfl⟩)
    (.of_forall fun act hact _ _ => by
      rw [List.mem_singleton.mp hact]
      exact ⟨fun ht => ht, fun hf => by
        obtain ⟨t, batch, ha, -⟩ := hf
        cases ha⟩) y hy .r rfl
  rw [hk] at hu
  rcases hu with hu | hu
  · rw [hu] at hread
    cases hread
  · rw [hu] at hread
    cases hread

end PmmpThread.Model.World
