/-
What becomes of an object that a joined thread leaves behind: it lives
on in the local tables of the thread that joined, as long as no sync of
these tables drops it.

# The rescue

The shared table keeps the address of the dead thread's object. The
connection that the full sync of `pmmpthread_join` cached is all that is
left of it, and `pmmpthread_store_sync_local_properties` compares that
connection with what is at the dead address: once the connection of the
joining thread is out of sync, its next sync evicts the entry
(`Evicts`). Two things bring it out of sync: any thread replacing a
cacheable element of the same object, and `pmmpthread_store_tohash` on
the thread itself.

# Shape

`rescued_by_join` follows the cached connection through every later run
whose syncs do not evict it; the invariant is `Rescued`, one lemma per
way a step treats a local table is `ConnStep.rescued`.
-/
import PmmpThread.Proofs.ReadYourWrites
import PmmpThread.Proofs.FullSync

namespace PmmpThread.Model.World

open Zend

variable {E : Engine} {t : ThreadId} {w w' : World}

-- =========================================================== eviction

/-- A sync of the local table of `c` would drop what it has under
`k`. -/
def Evicts (w : World) (c : Addr) (k : Key) : Prop :=
  ∃ x st v, w.conn c = some x ∧ x.o.props.hash.find k = some st
    ∧ x.z.loc.cached k = some v ∧ x.z.loc.modcount ≠ x.o.props.modcount
    ∧ w.keepCached x.z.owner st v = false

/-- The step syncs the local table of `c`; a full sync does if it gets
there. -/
def syncsAt (c : Addr) (w : World) (act : Act) (w' : World) : Prop :=
  match act with
  | .read c' _ _ | .write c' _ _ | .tohash c' _ | .sync c' => c' = c
  | .fullSync _ _ | .join _ _ => w'.locOf c ≠ w.locOf c
  | _ => False

/-- The step neither writes nor removes the key `k` of `s`, does not free
`c`, and does not evict what `c` has under `k`. -/
def Spares (c : Addr) (s : TsAddr) (k : Key) (w : World) (act : Act)
    (w' : World) : Prop :=
  LeavesKey c s k w act w' ∧ (syncsAt c w act w' → ¬ Evicts w c k)

/-- What a sync does not evict it keeps. -/
theorem kept_of_not_evicts {c : Addr} {x : Conn} {k : Key} {st : Storage}
    {v : Zval} (hx : w.conn c = some x)
    (hst : x.o.props.hash.find k = some st)
    (hv : x.z.loc.cached k = some v) (h : ¬ Evicts w c k) :
    x.z.loc.modcount = x.o.props.modcount
      ∨ w.keepCached x.z.owner st v = true := by
  by_cases hm : x.z.loc.modcount = x.o.props.modcount
  · exact Or.inl hm
  · refine Or.inr ?_
    by_contra hk
    rw [Bool.not_eq_true] at hk
    exact h ⟨x, st, v, hx, hst, hv, hm, hk⟩

theorem cached_syncLocal_of_kept {p : Store Storage} {l : Local} {k : Key}
    {st : Storage} {v : Zval} (hst : p.hash.find k = some st)
    (hv : l.cached k = some v)
    (h : l.modcount = p.modcount ∨ w.keepCached t st v = true) :
    (w.syncLocal t p l).cached k = some v := by
  rcases h with hm | hk
  · rw [cached_syncLocal, if_pos hm]
    exact hv
  · exact cached_syncLocal_of_keep hv hst hk

/-- A connection that a sync would keep, it would keep later too. -/
theorem keepCached_extends {a l : Addr} {b : Nat} {s' : TsAddr}
    (hext : Extends w w') (hl : w.tsOf l = some s')
    (h : w.keepCached t (.object a b) (.object l) = true) :
    w'.keepCached t (.object a b) (.object l) = true := by
  rcases Bool.or_eq_true_iff.mp h with h | h
  · exact Bool.or_eq_true_iff.mpr (Or.inl h)
  · obtain ⟨hvalid, hts⟩ := Bool.and_eq_true_iff.mp h
    have ha : w.tsOf a = some s' := (beq_iff_eq.mp hts).trans hl
    refine Bool.or_eq_true_iff.mpr (Or.inr (Bool.and_eq_true_iff.mpr
      ⟨decide_eq_true (hext.objects (of_decide_eq_true hvalid)), ?_⟩))
    rw [hext.tsOf ha, hext.tsOf hl]
    exact BEq.rfl

/-- A full sync keeps a connection that it would keep at its start. -/
theorem Syncs.spares {own : ThreadId → Prop} (hsy : Syncs E t own w w')
    (hs : Skel w) {a l : Addr} {b : Nat} {s' : TsAddr} {k : Key}
    {c : Addr} : w.tsOf l = some s' →
    ∀ {x : Conn}, w.conn c = some x →
      x.o.props.hash.find k = some (.object a b) →
      x.z.loc.cached k = some (.object l) →
      (x.z.loc.modcount = x.o.props.modcount
        ∨ w.keepCached x.z.owner (.object a b) (.object l) = true) →
      ∀ {x' : Conn}, w'.conn c = some x' →
        x'.z.loc.cached k = some (.object l)
        ∧ (x'.z.loc.modcount = x'.o.props.modcount
          ∨ w'.keepCached x'.z.owner (.object a b) (.object l) = true) := by
  induction hsy with
  | refl =>
      intro hl x hx hst hv h x' hx'
      rw [hx] at hx'
      rw [← Option.some.inj hx']
      exact ⟨hv, h⟩
  | @grow w u u' hu hg ih =>
      intro hl x hx hst hv h x' hx'
      have hext := hu.extends (hs.connecting t)
      obtain ⟨l', n, hxu⟩ := hext.conn hx
      obtain ⟨hc, hk⟩ := ih hs hl hx hst hv h hxu
      obtain ⟨n', hxg⟩ := Grow.conn (.single hg) hxu
      rw [hx'] at hxg
      rw [Option.some.inj hxg]
      exact ⟨hc, hk.imp id (keepCached_extends hg.extends (hext.tsOf hl))⟩
  | @sync w u c' y hu hy hoy ih =>
      intro hl x hx hst hv h x' hx'
      have hext := hu.extends (hs.connecting t)
      obtain ⟨l', n, hxu⟩ := hext.conn hx
      obtain ⟨hc, hk⟩ := ih hs hl hx hst hv h hxu
      obtain ⟨hzu, htsu, hou⟩ := conn_eq_some.mp hxu
      obtain ⟨hz', hts', ho'⟩ := conn_eq_some.mp hx'
      rw [mem_setLocal] at hz'
      split at hz'
      case isTrue hcc =>
        rw [← hcc, hxu] at hy
        have hyx := Option.some.inj hy
        rw [hzu, Option.map_some] at hz'
        replace hz' := Option.some.inj hz'
        rw [← hz'] at hts' ⊢
        rw [← Option.some.inj (htsu.symm.trans hts')] at ho'
        rw [← Option.some.inj (hou.symm.trans ho'), ← hyx]
        refine ⟨?_, Or.inl ?_⟩
        · rw [Local.cached_initProps]
          exact cached_syncLocal_of_kept hst hc hk
        · rw [Local.modcount_initProps]
          exact Local.modcount_sync _ _ _ _
      case isFalse =>
        rw [hzu] at hz'
        rw [← Option.some.inj hz'] at hts' ⊢
        rw [← Option.some.inj (htsu.symm.trans hts')] at ho'
        rw [← Option.some.inj (hou.symm.trans ho')]
        exact ⟨hc, hk.imp id (keepCached_extends
          (extends_modify_loc u c' fun _ => _) (hext.tsOf hl))⟩
  | @put w u u₁ u₂ c' y k' st' r hu hy hoy hst' _ hn hr _ hu₂ hz ih ih' =>
      intro hl x hx hst hv h x' hx'
      have hsu := hs.syncs hu
      have hext := hu.extends (hs.connecting t)
      obtain ⟨hsu₁, hg, n₂, hy₂⟩ := conn_restored hsu hy hr hu₂ hz
      obtain ⟨l', n, hxu⟩ := hext.conn hx
      obtain ⟨hc, hk⟩ := ih hs hl hx hst hv h hxu
      obtain ⟨n₁, hxu₁⟩ := hg.conn hxu
      have hl₁ := hg.extends.tsOf (hext.tsOf hl)
      obtain ⟨l₂, n₂, hxu₂⟩ := (hu₂.extends (hsu₁.connecting t)).conn hxu₁
      obtain ⟨hc₂, hk₂⟩ := ih' hsu₁ hl₁ hxu₁ hst hc (hk.imp id
        (keepCached_extends hg.extends (hext.tsOf hl))) hxu₂
      have hl₂ := (hu₂.extends (hsu₁.connecting t)).tsOf hl₁
      have hext₂ : Extends u₂ (u₂.putLocal c' k' r.zval) :=
        extends_modify_loc u₂ c' fun z => z.loc.put z.declared k' r.zval
      obtain ⟨hzu₂, htsu₂, hou₂⟩ := conn_eq_some.mp hxu₂
      obtain ⟨hz', hts', ho'⟩ := conn_eq_some.mp hx'
      change (u₂.mem.modify c' _).get c = _ at hz'
      rw [Heap.get_modify, hzu₂] at hz'
      have hstay := hk₂.imp id (keepCached_extends hext₂ hl₂)
      split at hz'
      case isTrue hcc =>
        rw [← Option.some.inj hz'] at hts' ⊢
        rw [← Option.some.inj (htsu₂.symm.trans hts')] at ho'
        rw [← Option.some.inj (hou₂.symm.trans ho')]
        refine ⟨?_, hstay⟩
        -- what is restored was not cached, so it is another element
        have hk' : k ≠ k' := by
          intro hkk
          rw [← hcc, hxu] at hy
          rw [← Option.some.inj hy, ← hkk] at hn
          exact absurd (hn.symm.trans hc) (by simp)
        show (Local.put _ _ _ _).cached k = _
        rw [Local.cached_put, if_neg hk']
        exact hc₂
      case isFalse =>
        rw [← Option.some.inj hz'] at hts' ⊢
        rw [← Option.some.inj (htsu₂.symm.trans hts')] at ho'
        rw [← Option.some.inj (hou₂.symm.trans ho')]
        exact ⟨hc₂, hstay⟩

-- ======================================================= the invariant

/-- The connection `c` of thread `t` to `s` has the object with identity
`b` under `k`, and nothing is pending for `k`. -/
structure Rescued (w : World) (c : Addr) (x : Conn) (k : Key) (a : Addr)
    (b : Nat) (l : Addr) : Prop where
  stored : x.o.props.hash.find k = some (.object a b)
  frame : NotAt c k (w.frame x.z.owner)
  cached : x.z.loc.cached k = some (.object l)
  birth : w.birthOf l = some b

/-- The local table and frame that a step leaves. -/
theorem ConnStep.rescued {c : Addr} {x : Conn} {k : Key} {a l : Addr}
    {b : Nat} {act : Act} {loc : Local} {p : Store Storage} (hs : Skel w)
    (hx : w.conn c = some x) (h : Rescued w c x k a b l)
    (hact : ¬ touches w x.s k act)
    (hsp : syncsAt c w act w' → ¬ Evicts w c k)
    (hc : ConnStep E w c x act w' loc p)
    (hp : p.hash.find k = some (.object a b)) :
    NotAt c k (w'.frame x.z.owner) ∧ loc.cached k = some (.object l) := by
  have hnot : w'.frame x.z.owner = .idle →
      NotAt c k (w'.frame x.z.owner) := by
    intro hi
    rw [hi]
    trivial
  have hsync : ¬ Evicts w c k →
      (w.syncLocal x.z.owner x.o.props x.z.loc).cached k
        = some (.object l) :=
    fun hev => cached_syncLocal_of_kept h.stored h.cached
      (kept_of_not_evicts hx h.stored h.cached hev)
  cases hc with
  | same hf =>
      refine ⟨?_, h.cached⟩
      rcases hf with hf | ⟨-, hoff⟩
      · rw [hf]
        exact h.frame
      · exact hoff.notAt k
  | read hi hf =>
      exact ⟨hnot hf, (cached_readSync w x k).trans (hsync (hsp rfl))⟩
  | @readFill k' access u v' st' hi hn hst hr =>
      have hc := (cached_readSync w x k).trans (hsync (hsp rfl))
      refine ⟨?_, hc⟩
      rw [frame_setFrame]
      intro _ hk
      rw [hk, hc] at hn
      cases hn
  | sync hi hf => exact ⟨hnot hf, hsync (hsp rfl)⟩
  | tohash hi hf hr hl =>
      refine ⟨hnot hf, (cached_tohash hr hl k).1 _ ?_⟩
      exact (cached_tohashSync w x k).trans (hsync (hsp rfl))
  | @write key v' st' w' hi hh hst hf =>
      have hk : x.o.props.member key ≠ k := by
        intro hk
        exact hact ⟨x, hx, rfl, hk⟩
      refine ⟨by rw [hf]; exact fun _ => hk, ?_⟩
      refine cached_syncLocal_of_kept hp ?_ ?_
      · rw [bumpIf_cached]
        exact h.cached
      · refine (kept_of_not_evicts hx h.stored h.cached (hsp rfl)).imp
          (fun hm => (bumpIf_inSync _ _ _).mpr (Or.inl ?_)) id
        rw [hm, Store.modcount_write]
  | trim hi _ _ hcached _ hf =>
      refine ⟨?_, ?_⟩
      · rcases hf with hf | ⟨k', hf, htouch⟩
        · exact hnot hf
        · rw [hf]
          exact fun _ hk => hact (hk ▸ htouch)
      · rcases hcached k with heq | htouch
        · exact heq.trans h.cached
        · exact absurd htouch hact
  | @fill k' v' w' hi hf =>
      have hn := h.frame
      rw [hi] at hn
      refine ⟨hnot hf, ?_⟩
      rw [Local.cached_updateLocalProperty,
        if_neg fun hk => hn rfl hk.1.symm]
      exact h.cached
  | @drop k' w' hi hf =>
      have hn := h.frame
      rw [hi] at hn
      refine ⟨hnot hf, ?_⟩
      rw [Local.cached_del, if_neg fun hk => hn rfl hk.symm]
      exact h.cached
  | @syncs act loc w' hi hact' hsy hl =>
      have hext := hsy.extends (hs.connecting _)
      refine ⟨hnot (by rw [hext.frame]; exact hi), ?_⟩
      obtain ⟨l', n, hx'⟩ := hext.conn hx
      have hloc : loc = l' := by
        unfold locOf at hl
        rw [(conn_eq_some.mp hx').1] at hl
        exact (Option.some.inj hl).symm
      by_cases hsame : w'.locOf c = w.locOf c
      · rw [hl] at hsame
        unfold locOf at hsame
        rw [(conn_eq_some.mp hx).1] at hsame
        rw [Option.some.inj hsame]
        exact h.cached
      · have hev : ¬ Evicts w c k := by
          refine hsp ?_
          rcases hact' with ⟨c', fuel, rfl⟩ | ⟨c', fuel, rfl⟩
          · exact hsame
          · exact hsame
        obtain ⟨o, ho, -⟩ := Option.map_eq_some_iff.mp h.birth
        obtain ⟨s', hs', -⟩ := Option.bind_eq_some_iff.mp ho
        rw [hloc]
        exact (hsy.spares hs hs' hx h.stored h.cached
          (kept_of_not_evicts hx h.stored h.cached hev) hx').1

/-- What a step that spares the entry does to it: the connection keeps
it, or is about to be freed. -/
theorem step_rescued {c : Addr} {x : Conn} {k : Key} {a l : Addr} {b : Nat}
    {act : Act} (hs : Skel w) (hown : OwnInv w)
    (hstep : step E w act = some w') (hx : w.conn c = some x)
    (h : Rescued w c x k a b l) (hb : c ∉ (w.frame x.z.owner).batch)
    (hact : Spares c x.s k w act w') :
    ∃ x', w'.conn c = some x' ∧ x'.z.owner = x.z.owner ∧ x'.s = x.s
      ∧ Rescued w' c x' k a b l := by
  obtain ⟨⟨htouch, hfree⟩, hev⟩ := hact
  rcases step_conn hs hown hstep hx with hf | ⟨x', hx', ho, hss, hst, -⟩
  · exact absurd hf hfree
  obtain ⟨-, -, -, hc⟩ := step_pair hs hown hstep hx hx'
  have hp : x'.o.props.hash.find k = some (.object a b) := by
    rcases hst.quiet k htouch with heq | ⟨t, st₀, st', -, hst₀, hper, -⟩
    · exact heq.trans h.stored
    · obtain ⟨q, bs, hq, -⟩ := hper
      rw [h.stored] at hst₀
      rw [← Option.some.inj hst₀] at hq
      cases hq
  obtain ⟨hf, hl⟩ := hc.rescued hs hx h htouch hev hp
  refine ⟨x', hx', ho, hss, hp, ho ▸ hf, hl, ?_⟩
  -- what a table caches is not freed before the table is
  have hsafe := (hown x.z.owner).cached (conn_eq_some.mp hx).1 rfl hb h.cached
  rcases step_birthOf hs hown hstep h.birth with hlf | hbirth
  · obtain ⟨t, batch, -, hf⟩ := hlf
    obtain ⟨z, hz, hzo⟩ := hsafe.1
    have hfo := hs.frames t
    rw [hf] at hfo
    obtain ⟨z', s', hz', ho', -⟩ := hfo.2 l List.mem_cons_self
    rw [hz] at hz'
    have ht : t = x.z.owner := by
      rw [← ho', ← Option.some.inj hz', hzo]
    refine absurd ?_ (hsafe.2 l rfl)
    rw [← ht, hf]
    exact List.mem_cons_self
  · exact hbirth

/-- And a whole run of such steps. -/
theorem run_rescued {c : Addr} {s : TsAddr} {k : Key} {a l : Addr} {b : Nat}
    {acts : List Act} (hs : Skel w) (hown : OwnInv w) {x : Conn}
    (hx : w.conn c = some x) (ho : x.z.owner = t) (hxs : x.s = s)
    (h : Rescued w c x k a b l)
    (hall : AllSteps E (Spares c s k) w acts)
    (hrun : run E w acts = some w') :
    Skel w' ∧ (c ∈ (w'.frame t).batch ∨ ∃ x', w'.conn c = some x'
      ∧ Rescued w' c x' k a b l) := by
  have hinv := AllSteps.run_induct (E := E) (P := Spares c s k)
    (I := fun w => Skel w ∧ OwnInv w ∧ (c ∈ (w.frame t).batch
      ∨ ∃ x, w.conn c = some x ∧ x.z.owner = t ∧ x.s = s
        ∧ Rescued w c x k a b l))
    (fun w act w' hi hstep hp => by
      obtain ⟨hs, hown, hi⟩ := hi
      refine ⟨step_skel hs hstep, step_own hs hown hstep, ?_⟩
      by_cases hb : c ∈ (w.frame t).batch
      · rcases step_batch hs hstep hb with hf | hb'
        · exact absurd hf hp.1.2
        · exact Or.inl hb'
      · rcases hi with hb' | ⟨x, hx, ho, hxs, hk⟩
        · exact absurd hb' hb
        · obtain ⟨x', hx', ho', hxs', hk'⟩ := step_rescued hs hown hstep hx
            hk (by rw [ho]; exact hb) (by rw [hxs]; exact hp)
          exact Or.inr ⟨x', hx', ho'.trans ho, hxs'.trans hxs, hk'⟩)
    acts ⟨hs, hown, Or.inr ⟨x, hx, ho, hxs, h⟩⟩ hall hrun
  refine ⟨hinv.1, ?_⟩
  rcases hinv.2.2 with hb | ⟨x', hx', -, -, hk'⟩
  · exact Or.inl hb
  · exact Or.inr ⟨x', hx', hk'⟩

/-- An object that is about to be freed is not used any more. -/
theorem Skel.not_ready (hs : Skel w) {c : Addr}
    (h : c ∈ (w.frame t).batch) (y : Conn) : w.ready c ≠ some y := by
  intro hy
  obtain ⟨hyc, hyi⟩ := ready_eq_some.mp hy
  have hfo := hs.frames t
  cases hf : w.frame t with
  | freeing batch =>
      rw [hf] at h hfo
      obtain ⟨z, s, hz, ho, -⟩ := hfo.2 c h
      have hzy := (conn_eq_some.mp hyc).1
      rw [hz] at hzy
      rw [← Option.some.inj hzy, ho, hf] at hyi
      cases hyi
  | _ =>
      rw [hf] at h
      cases h

/-- The read answers with the connection. -/
theorem Rescued.read {c : Addr} {x : Conn} {k : Key} {a l : Addr} {b : Nat}
    (h : Rescued w c x k a b l) (hx : w.conn c = some x)
    (hev : ¬ Evicts w c k) (access : Access) :
    ∃ u, w.readLocked E c k access = (.cached (.object l), u)
      ∧ u.birthOf l = some b := by
  have hv : (w.readSync x).cached k = some (.object l) :=
    (cached_readSync w x k).trans (cached_syncLocal_of_kept h.stored
      h.cached (kept_of_not_evicts hx h.stored h.cached hev))
  refine ⟨w.setLocal c (w.readSync x), ?_,
    (extends_modify_loc w c fun _ => _).birthOf h.birth⟩
  unfold readLocked
  simp only [hx, hv]

-- ============================================================= the join

/-- What the join leaves for an entry to follow. -/
theorem Done.rescued {s s' : TsAddr} {k : Key} {a : Addr} {b : Nat}
    {w₀ : World} (hs : Skel w') (hext : Extends w₀ w')
    (he : w₀.entry s k = some (.object a b)) (he' : w'.entry s k
      = w₀.entry s k) (hb : w₀.birthOf a = some b)
    (ha : w₀.tsOf a = some s') (hf : w'.frame t = .idle)
    (hfol : Follows w₀ t s k s') (h : Done w₀ w' t s) :
    ∃ c x l, w'.resolve t s = some c ∧ w'.conn c = some x
      ∧ x.z.owner = t ∧ x.s = s ∧ Rescued w' c x k a b l := by
  obtain ⟨c, z, hz, ho, hts, hk⟩ := h
  obtain ⟨o, hoo⟩ := hs.tsLive hz hts
  obtain ⟨l, hl, hls⟩ := hk k s' hfol
  refine ⟨c, ⟨z, s, o⟩, l, ho ▸ hs.resolveAll hz hts,
    conn_eq_some.mpr ⟨hz, hts, hoo⟩, ho, rfl, ?_, ?_, hl, ?_⟩
  · rw [he] at he'
    unfold entry at he'
    rw [hoo] at he'
    exact he'
  · show NotAt c k (w'.frame z.owner)
    rw [ho, hf]
    trivial
  · have hb' := hext.birthOf hb
    unfold birthOf at hb' ⊢
    rw [hext.tsOf ha] at hb'
    rw [hls]
    exact hb'

/-- From `w₁` on the connection of thread `t` to `s` reads the object
with identity `b` under `k`: after every run of steps that satisfy `P`,
in a world that satisfies `Q`. -/
def StaysReadable (E : Engine) (w₁ : World) (t : ThreadId) (s : TsAddr)
    (k : Key) (b : Nat) (P : Addr → World → Act → World → Prop)
    (Q : Addr → World → Prop) : Prop :=
  ∃ c, w₁.resolve t s = some c
    ∧ ∀ (acts : List Act) (w : World), run E w₁ acts = some w →
      AllSteps E (P c) w₁ acts → Q c w → ∀ y, w.ready c = some y →
      ∀ access, ∃ l u, (w.readLocked E c k access = (.cached (.object l), u)
          ∨ w.readLocked E c k access = (.restored (.object l), u))
        ∧ u.birthOf l = some b

/-- An object that a joined thread left under the key `k` of `s` stays
there for the thread that joined: after the join of the thread object
`x`, if `s` is reached from it or from the shared globals by entries
that name live objects and that the joining thread has nothing wrong
under, every read of `k` returns a connection to the object that was
written, through every later run that leaves the key alone, keeps the
connection and does not sync it while the entry would be evicted. -/
theorem rescued_by_join (E : Engine) (w₀ w₁ : World) (h : Reachable E w₀)
    (x : Addr) (cx : Conn) (fuel : Nat) (hx : w₀.conn x = some cx)
    (hjoin : step E w₀ (.join x fuel) = some w₁) (root s s' : TsAddr)
    (hroot : w₀.tsOf x = some root
      ∨ ∃ g, w₀.threadSharedGlobals cx.z.owner = some g
        ∧ w₀.tsOf g = some root)
    (hreach : Relation.ReflTransGen
      (fun s s' => ∃ k, Follows w₀ cx.z.owner s k s') root s)
    (k : Key) (a : Addr) (b : Nat)
    (he : w₀.entry s k = some (.object a b)) (hb : w₀.birthOf a = some b)
    (hfol : Follows w₀ cx.z.owner s k s') :
    StaysReadable E w₁ cx.z.owner s k b (fun c => Spares c s k)
      (fun c w => ¬ Evicts w c k) := by
  have hs := h.skel
  have hown := h.own
  have hs₁ := step_skel hs hjoin
  have hown₁ := step_own hs hown hjoin
  obtain ⟨cx', hx', hu⟩ := Option.bind_eq_some_iff.mp hjoin
  obtain ⟨-, hu⟩ := Option.ite_none_right_eq_some.mp hu
  obtain ⟨hcx, hi⟩ := ready_eq_some.mp hx'
  have hcc : cx' = cx := Option.some.inj (hcx.symm.trans hx)
  rw [hcc] at hi hu
  have hheld : Held w₀ cx.z.owner (.object x) :=
    ⟨cx.z, (conn_eq_some.mp hx).1, rfl⟩
  have hsy := joinSync_syncs visits_own ⟨hs, hown cx.z.owner, hi⟩ hheld
    (fun g hg => (hown cx.z.owner).globals hg) hu
  have hext := hsy.extends (hs.connecting _)
  have hdone := joinSync_done hs (hown _) hi hheld hroot hreach hu
  obtain ⟨a', b', he', ha⟩ := hfol.names
  rw [he] at he'
  injection he' with he'
  injection he' with haa _
  obtain ⟨c, xc, l, hres, hxc, ho, hxs, hresc⟩ := hdone.rescued hs₁ hext
    he (entry_of_props (hsy.props (hs.connecting _)) s k).1 hb
    (haa ▸ ha) (by rw [hext.frame, hi]) hfol
  refine ⟨c, hres, fun acts w hrun hall hev y hy access => ?_⟩
  obtain ⟨hsw, hinv⟩ :=
    run_rescued hs₁ hown₁ hxc ho hxs hresc hall hrun
  rcases hinv with hbatch | ⟨x', hx', hk'⟩
  · exact absurd hy (hsw.not_ready hbatch y)
  · obtain ⟨u, hu, hub⟩ := hk'.read (E := E) hx' hev access
    exact ⟨l, u, Or.inl hu, hub⟩

/-- Thread 1 makes a thread object and its globals; thread 2 connects,
stores an object of its own under key 0 and a number under key 1. -/
def leaveBehind : List Act :=
  [.alloc 1 [] .thread [], .ctor 1, .alloc 1 [] .threaded [], .ctor 1,
    .bindGlobals 2, .connect 2 1, .alloc 2 [] .threaded [], .ctor 2,
    .write 3 (some (.long 0)) (.object 4), .finish 2,
    .write 3 (some (.long 1)) (.long 7), .finish 2]

/-- The join by thread 1, in the world that `leaveBehind` reaches. -/
theorem join_leaveBehind :
    ∃ w₀ w₁ cx, run (demoEngine .bump) init leaveBehind = some w₀
      ∧ w₀.conn 1 = some cx ∧ cx.z.owner = 1
      ∧ step (demoEngine .bump) w₀ (.join 1 3) = some w₁
      ∧ w₀.tsOf 1 = some 1 ∧ w₀.entry 1 (.long 0) = some (.object 4 2)
      ∧ w₀.birthOf 4 = some 2 ∧ w₀.tsOf 4 = some 3
      ∧ w₀.cachedAt 1 (.long 0) = none ∧ w₀.resolve 1 1 = some 1 := by
  have hview : (run (demoEngine .bump) init leaveBehind).map (fun w =>
      ((w.conn 1).map (fun x => x.z.owner),
        (step (demoEngine .bump) w (.join 1 3)).isSome, w.tsOf 1,
        w.entry 1 (.long 0)))
      = some (some 1, true, some 1, some (.object 4 2)) := by
    decide
  have hview' : (run (demoEngine .bump) init leaveBehind).map (fun w =>
      (w.birthOf 4, w.tsOf 4, w.cachedAt 1 (.long 0), w.resolve 1 1))
      = some (some 2, some 3, none, some 1) := by
    decide
  obtain ⟨w₀, hw₀, hv⟩ := Option.map_eq_some_iff.mp hview
  rw [hw₀] at hview'
  simp only [Option.map_some, Option.some.injEq, Prod.mk.injEq] at hv hview'
  obtain ⟨hconn, hstep, hts, he⟩ := hv
  obtain ⟨cx, hcx, ho⟩ := Option.map_eq_some_iff.mp hconn
  obtain ⟨w₁, hw₁⟩ := Option.isSome_iff_exists.mp hstep
  exact ⟨w₀, w₁, cx, hw₀, hcx, ho, hw₁, hts, he, hview'⟩

theorem rescued_by_join_leaveBehind :
    ∃ w₀ w₁, run (demoEngine .bump) init leaveBehind = some w₀
      ∧ step (demoEngine .bump) w₀ (.join 1 3) = some w₁
      ∧ StaysReadable (demoEngine .bump) w₁ 1 1 (.long 0) 2
        (fun c => Spares c 1 (.long 0)) (fun c w => ¬ Evicts w c (.long 0))
    := by
  obtain ⟨w₀, w₁, cx, hw₀, hcx, ho, hw₁, hts, he, hb, hts', hn, hres⟩ :=
    join_leaveBehind
  have hreach : Reachable (demoEngine .bump) w₀ := ⟨leaveBehind, hw₀⟩
  -- thread 1 has nothing under key 0 yet
  have hfol : Follows w₀ 1 1 (.long 0) 3 := by
    refine ⟨⟨4, 2, he, hts'⟩, fun c z hz hzo hzs _ v hv => ?_⟩
    have hc := hreach.skel.resolveAll hz hzs
    rw [hzo, hres] at hc
    rw [← Option.some.inj hc] at hz
    rw [cachedAt_eq hz] at hn
    rw [hn] at hv
    cases hv
  have hr := rescued_by_join (demoEngine .bump) w₀ w₁ hreach 1 cx 3 hcx hw₁
    1 1 3 (Or.inl hts) .refl (.long 0) 4 2 he hb (ho.symm ▸ hfol)
  rw [ho] at hr
  exact ⟨w₀, w₁, hw₀, hw₁, hr⟩

/-- Then thread 2 frees its objects, and thread 1 turns the thread object
into an array. -/
def rewind : List Act :=
  [.release 2 [3, 4], .baseFree 2, .baseFree 2, .tohash 1 true]

/-- A run in which nobody writes the key and the connection's thread
frees nothing. -/
theorem leavesKey_of_quiet {c : Addr} {s : TsAddr} {k : Key}
    (acts : List Act)
    (hacts : ∀ act ∈ acts, (∀ w, ¬ touches w s k act)
      ∧ act ≠ .baseFree t) :
    ∀ {w : World} {x : Conn}, Skel w → OwnInv w → w.conn c = some x →
      x.z.owner = t → AllSteps E (LeavesKey c s k) w acts := by
  induction acts with
  | nil => exact fun _ _ _ _ => trivial
  | cons act acts ih =>
      intro w x hs hown hx ho u hu
      obtain ⟨htouch, hact⟩ := hacts act List.mem_cons_self
      have hnf : ¬ freesAt w c act := by
        intro ⟨t', batch, hact', hf⟩
        have hfo := hs.frames t'
        rw [hf] at hfo
        obtain ⟨z, s', hz, ho', -⟩ := hfo.2 c List.mem_cons_self
        rw [(conn_eq_some.mp hx).1] at hz
        rw [← ho', ← Option.some.inj hz, ho] at hact'
        exact hact hact'
      refine ⟨⟨htouch w, hnf⟩, ?_⟩
      rcases step_conn hs hown hu hx with hf | ⟨x', hx', ho', -, -, -⟩
      · exact absurd hf hnf
      · exact ih (fun a ha => hacts a (List.mem_cons_of_mem _ ha))
          (step_skel hs hu) (step_own hs hown hu) hx' (ho'.trans ho)

theorem rescue_lost_after_tohash :
    ¬ ∀ (E : Engine) (w₀ w₁ : World) (x : Addr) (cx : Conn) (fuel : Nat)
        (root s s' : TsAddr) (k : Key) (a : Addr) (b : Nat),
      Reachable E w₀ → w₀.conn x = some cx →
      step E w₀ (.join x fuel) = some w₁ →
      (w₀.tsOf x = some root
        ∨ ∃ g, w₀.threadSharedGlobals cx.z.owner = some g
          ∧ w₀.tsOf g = some root) →
      Relation.ReflTransGen (fun s s' => ∃ k, Names w₀ s k s') root s →
      w₀.entry s k = some (.object a b) → w₀.birthOf a = some b →
      w₀.tsOf a = some s' →
      StaysReadable E w₁ cx.z.owner s k b (fun c => LeavesKey c s k)
        (fun _ _ => True) := by
  intro h
  obtain ⟨w₀, w₁, cx, hw₀, hcx, ho, hw₁, hts, he, hb, hts', -, hres⟩ :=
    join_leaveBehind
  have hreach : Reachable (demoEngine .bump) w₀ := ⟨leaveBehind, hw₀⟩
  obtain ⟨c, hc, hall⟩ := h (demoEngine .bump) w₀ w₁ 1 cx 3 1 1 3 (.long 0)
    4 2 hreach hcx hw₁ (Or.inl hts) .refl he hb hts'
  have hview : ((run (demoEngine .bump) init (leaveBehind
      ++ .join 1 3 :: rewind))).map (fun w => ((w.ready 1).isSome,
        (w.readLocked (demoEngine .bump) 1 (.long 0) .r).1))
      = some (true, .threw) := by
    decide
  obtain ⟨w, hw, hv⟩ := Option.map_eq_some_iff.mp hview
  obtain ⟨hready, hread⟩ := Prod.mk.inj hv
  obtain ⟨y, hy⟩ := Option.isSome_iff_exists.mp hready
  have hrun : run (demoEngine .bump) w₁ rewind = some w := by
    obtain ⟨u, hu, hw⟩ := foldlM_append_iff.mp hw
    obtain ⟨u', hu', hw⟩ := run_cons.mp hw
    rw [Option.some.inj (hu.symm.trans hw₀)] at hu'
    rw [← Option.some.inj (hu'.symm.trans hw₁)]
    exact hw
  have hs₁ := step_skel hreach.skel hw₁
  have hown₁ := step_own hreach.skel hreach.own hw₁
  rcases step_conn hreach.skel hreach.own hw₁ hcx with
    ⟨t, batch, hact, -⟩ | ⟨x₁, hx₁, ho₁, hss₁, -, -⟩
  · cases hact
  obtain ⟨hz₁, hts₁, -⟩ := conn_eq_some.mp hx₁
  have hs1 : x₁.s = 1 := by
    rw [hss₁]
    obtain ⟨hz, hzs, -⟩ := conn_eq_some.mp hcx
    exact Option.some.inj (hzs.symm.trans ((tsOf_of_get hz).symm.trans hts))
  have hc1 : c = 1 := by
    have hr := hs₁.resolveAll hz₁ hts₁
    rw [ho₁, hs1, hc] at hr
    exact Option.some.inj hr
  subst hc1
  obtain ⟨l, u, hl, -⟩ := hall rewind w hrun (leavesKey_of_quiet rewind
    (by
      intro act hact
      simp only [rewind, List.mem_cons, List.not_mem_nil, or_false] at hact
      rcases hact with rfl | rfl | rfl | rfl
      · exact ⟨fun _ h => h, fun h => nomatch h⟩
      · exact ⟨fun _ h => h, fun h => by injection h with h; cases h⟩
      · exact ⟨fun _ h => h, fun h => by injection h with h; cases h⟩
      · exact ⟨fun _ h => h, fun h => nomatch h⟩)
    hs₁ hown₁ hx₁ (ho₁.trans ho)) trivial y hy .r
  rcases hl with hl | hl
  · rw [hl] at hread
    cases hread
  · rw [hl] at hread
    cases hread

end PmmpThread.Model.World
