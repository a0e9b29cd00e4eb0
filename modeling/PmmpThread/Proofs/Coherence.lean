/-
Cache coherence across threads: a connection through which only reads
are made never yields a stale value.

# The invariant

A connection that is in sync with its store (the two modification counts
are equal) has only values in its local table that the store denotes
now, and so is the value that a pending `fill` will put there, if the
table retains it. One count serves a whole object, and a mutator bumps
it only if what it replaced was cacheable; that is enough because what a
table retains always came from a cacheable storage (`Fits`).

A connection that is behind may have anything in its table. It becomes
in sync again by a sync, which keeps a value only if it still matches
its storage (`keep_denotes`).
-/
import PmmpThread.Proofs.Modcounts

namespace PmmpThread.Model.World

open Zend

variable {E : Engine} {t : ThreadId} {w w' : World}

-- ================================================= what a storage means

/-- The value is one that the storage stands for: the same scalar, the
same bytes, the same enum case, the same descriptor, the same code, the
same ts_obj. -/
def Denotes (w : World) : Storage → Zval → Prop
  | .null, v => v = .null
  | .bool b, v => v = .bool b
  | .long n, v => v = .long n
  | .double d, v => v = .double d
  | .string true b, v => v = .interned b
  | .string false b, v | .stringPtr _ _ b, v =>
      ∃ p o, v = .string p ∧ w.strings.get p = some ⟨o, b⟩
  | .closure q _ _, v =>
      ∃ p cl cl', v = .closure p ∧ w.closures[q]? = some cl
        ∧ w.closures[p]? = some cl' ∧ cl'.body = cl.body
  | .object _ b, v => ∃ a, v = .object a ∧ w.birthOf a = some b
  | .socket s, v => ∃ s', v = .socket s' ∧ s'.bsdSocket = s.bsdSocket
  | .enumCase cls name, v => v = .enumCase cls name

/-- A value that is still held after a change means what it meant. -/
theorem Denotes.mono {st : Storage} {v : Zval} (h : Denotes w st v)
    (hstr : ∀ p s, v = .string p → w.strings.get p = some s →
      w'.strings.get p = some s)
    (hcl : ClosuresStay w w')
    (hobj : ∀ a b, v = .object a → w.birthOf a = some b →
      w'.birthOf a = some b) : Denotes w' st v := by
  have hstring : ∀ b, (∃ p o, v = .string p
        ∧ w.strings.get p = some ⟨o, b⟩) →
      ∃ p o, v = .string p ∧ w'.strings.get p = some ⟨o, b⟩ := by
    intro b hb
    obtain ⟨p, o, hv, hp⟩ := hb
    exact ⟨p, o, hv, hstr p _ hv hp⟩
  cases st with
  | string permanent b =>
      cases permanent with
      | true => exact h
      | false => exact hstring b h
  | stringPtr owner q b => exact hstring b h
  | closure q thisObj owner =>
      obtain ⟨p, cl, cl', hv, hq, hp, hb⟩ := h
      obtain ⟨live, hq'⟩ := hcl q cl hq
      obtain ⟨live', hp'⟩ := hcl p cl' hp
      exact ⟨p, _, _, hv, hq', hp', hb⟩
  | object o b =>
      obtain ⟨a, hv, hb⟩ := h
      exact ⟨a, hv, hobj a b hv hb⟩
  | _ => exact h

theorem Denotes.extends {st : Storage} {v : Zval} (h : Denotes w st v)
    (hext : Extends w w') : Denotes w' st v :=
  h.mono (fun _ _ _ hp => hext.strings hp)
    (closuresStay_of_append hext.closures) fun _ _ _ hb => hext.birthOf hb

/-- What a step leaves of a value that a thread still holds. -/
theorem Denotes.step {act : Act} {st : Storage} {v : Zval}
    (h : Denotes w st v) (hs : Skel w) (hown : OwnInv w)
    (hstep : step E w act = some w') (hv : Held w' t v) :
    Denotes w' st v := by
  obtain ⟨hstr, hcl⟩ := step_values hs hown hstep
  refine h.mono (fun p s hvp hp => ?_) hcl fun a b hva hb => ?_
  · rw [hvp] at hv
    obtain ⟨b, hp'⟩ := hv
    rw [hp', hstr p s _ hp hp']
  · rw [hva] at hv
    obtain ⟨z, hz, -⟩ := hv
    rcases step_birthOf hs hown hstep hb with hf | hb
    · rw [hf.dead hs hstep] at hz
      cases hz
    · exact hb

-- ===================================================== what is restored

/-- What the invariants say about a storage in a shared table: an object
that is live is the one that was written, a string is there. -/
def Sound (w : World) : Storage → Prop
  | .object a b => (w.mem.get a).isSome = true → w.birthOf a = some b
  | .stringPtr owner p b => w.strings.get p = some ⟨owner, b⟩
  | _ => True

theorem sound_of_entry (haddr : AddrInv w) (hown : OwnInv w) {s : TsAddr}
    {k : Key} {st : Storage} (he : w.entry s k = some st) : Sound w st := by
  cases st with
  | object a b => exact haddr.birth he
  | stringPtr owner p b => exact ((hown owner).strings he).1
  | _ => trivial

theorem Sound.setLocal {st : Storage} (h : Sound w st) (c : Addr)
    (l : Local) : Sound (w.setLocal c l) st := by
  cases st with
  | object a b =>
      intro ha
      rw [birthOf_setLocal]
      rw [show (w.setLocal c l).mem = w.mem.modify c _ from rfl,
        Heap.get_modify_isSome] at ha
      exact h ha
  | stringPtr owner p b => exact h
  | _ => trivial

theorem copyBound_body {cl : Closure} {thisObj : Option Addr} {v : Zval}
    {u : World} (h : w.copyBound E t cl thisObj = (.value v, u)) :
    ∃ p cl', v = .closure p ∧ u.closures[p]? = some cl'
      ∧ cl'.body = cl.body := by
  have hnew : ∀ (w' : World) (cl' : Closure),
      (w'.newClosure cl').2.closures[(w'.newClosure cl').1]? = some cl' :=
    fun _ _ => List.getElem?_concat_length
  unfold copyBound at h
  split at h
  · split at h
    · injection h with hv hu
      injection hv with hv
      have hp := hnew w { cl with owner := t, thisObj, uses := [] }
      rw [hu] at hp
      exact ⟨_, _, hv.symm, hp, rfl⟩
    · cases h
  · split at h
    case h_1 uses w' _ =>
      injection h with hv hu
      injection hv with hv
      have hp := hnew w' { cl with owner := t, thisObj, uses }
      rw [hu] at hp
      exact ⟨_, _, hv.symm, hp, rfl⟩
    case h_2 => cases h

theorem copyClosure_body {q : ClosurePtr} {v : Zval} {u : World}
    (hc : w.connecting t = none)
    (h : w.copyClosure E t q = (.value v, u)) :
    ∃ p cl cl', v = .closure p ∧ u.closures[q]? = some cl
      ∧ u.closures[p]? = some cl' ∧ cl'.body = cl.body := by
  have hg := copyClosure_grow (E := E) hc q
  rw [h] at hg
  unfold copyClosure at h
  split at h
  · cases h
  case h_2 cl hcl =>
    have hq : u.closures[q]? = some cl := by
      obtain ⟨hlt, heq⟩ := List.getElem?_eq_some_iff.mp hcl
      rw [List.prefix_iff_getElem?.mp hg.extends.closures q hlt, heq]
    have hbody : ∀ {w' : World} {thisObj},
        w'.copyBound E t cl thisObj = (.value v, u) →
        ∃ p cl cl', v = .closure p ∧ u.closures[q]? = some cl
          ∧ u.closures[p]? = some cl' ∧ cl'.body = cl.body := by
      intro w' thisObj h'
      obtain ⟨p, cl', hv, hp, hb⟩ := copyBound_body h'
      exact ⟨p, cl, cl', hv, hq, hp, hb⟩
    split at h
    case isFalse => cases h
    case isTrue =>
      split at h
      · exact hbody h
      · split at h
        case h_1 => exact hbody h
        case h_2 => cases h
        case h_3 => exact hbody h
        case h_4 => cases h

/-- A restored value is one that the storage denotes. -/
theorem restoreZval_denotes (hs : Skel w) {st : Storage} {v : Zval}
    {u : World} (hst : Sound w st)
    (h : w.restoreZval E t st = (.value v, u)) : Denotes u st v := by
  cases st with
  | string permanent b =>
      cases permanent with
      | true =>
          injection h with hv hu
          injection hv with hv
          exact hv.symm
      | false =>
          injection h with hv hu
          injection hv with hv
          refine ⟨_, t, hv.symm, ?_⟩
          rw [← hu]
          exact Heap.get_place_self _ _ _
  | stringPtr owner p b =>
      obtain ⟨q, u', hr, hq⟩ := restoreZval_bytes (E := E) hst t
      rw [hr] at h
      injection h with hv hu
      injection hv with hv
      exact ⟨q, t, hv.symm, hu ▸ hq⟩
  | closure p thisObj owner => exact copyClosure_body (hs.connecting t) h
  | object o b =>
      cases hz : w.mem.get o with
      | none =>
          rw [restoreZval_gone (objectConnect_gone hs hz t)] at h
          cases h
      | some z =>
          have hb := hst (by rw [hz]; rfl)
          cases hcan : w.connectable E t o with
          | false =>
              rw [restoreZval_failed
                (objectConnect_failed (hs.connecting t) hcan)] at h
              cases h
          | true =>
          obtain ⟨l, hl, hbl⟩ := objectConnect_birth hs hb hcan
          rcases hcon : w.objectConnect E t o with ⟨r, u'⟩
          rw [hcon] at hl hbl
          change r = _ at hl
          rw [hl] at hcon
          rw [restoreZval_ok hcon] at h
          injection h with hv hu
          injection hv with hv
          exact ⟨l, hv.symm, hu ▸ hbl⟩
  | socket s =>
      injection h with hv hu
      injection hv with hv
      exact ⟨s, hv.symm, rfl⟩
  | enumCase cls name => exact restoreZval_enumCase h
  | _ =>
      injection h with hv hu
      injection hv with hv
      exact hv.symm

/-- A restored value that local tables retain has a cacheable storage. -/
theorem cacheable_of_restored {st : Storage} {v : Zval} {u : World}
    (h : w.restoreZval E t st = (.value v, u))
    (hv : retainInLocalCache v = true) :
    storageIsCacheable (some st) = true := by
  cases st with
  | null | bool _ | long _ | double _ =>
      injection h with h hu
      injection h with h
      rw [← h] at hv
      cases hv
  | enumCase cls name =>
      rw [restoreZval_enumCase h] at hv
      cases hv
  | _ => rfl

-- ========================================================= what is kept

/-- What a sync keeps is what the storage denotes. -/
theorem keep_denotes (hs : Skel w) {st : Storage} {v : Zval}
    (hst : Sound w st) (hkeep : w.keepCached t st v = true)
    (hheld : Held w t v) :
    storageIsCacheable (some st) = true ∧ Denotes w st v := by
  unfold keepCached at hkeep
  split at hkeep
  case h_1 shared b loc =>
    refine ⟨rfl, loc, rfl, ?_⟩
    rcases Bool.or_eq_true_iff.mp hkeep with heq | hval
    · have heq : shared = loc := beq_iff_eq.mp heq
      obtain ⟨z, hz, -⟩ := hheld
      rw [heq] at hst
      exact hst (by rw [hz]; rfl)
    · obtain ⟨hvalid, hts⟩ := Bool.and_eq_true_iff.mp hval
      have hlive := (hs.objects shared).mp (of_decide_eq_true hvalid)
      have hb := hst hlive
      unfold birthOf at hb ⊢
      rw [← beq_iff_eq.mp hts]
      exact hb
  case h_2 shared thisObj owner loc =>
    obtain ⟨cl, hcl⟩ := hheld
    rw [beq_iff_eq.mp hkeep]
    exact ⟨rfl, loc, cl, cl, rfl, hcl, hcl, rfl⟩
  case h_3 shared loc =>
    exact ⟨rfl, loc, rfl, (beq_iff_eq.mp hkeep).symm⟩
  case h_4 owner shared b loc =>
    obtain ⟨-, hp⟩ := Bool.and_eq_true_iff.mp hkeep
    rw [beq_iff_eq.mp hp] at hst
    exact ⟨rfl, loc, owner, rfl, hst⟩
  case h_5 => cases hkeep

-- ======================================================== the invariant

/-- The value is what a cacheable storage under `k` denotes. -/
def Fits (w : World) (p : Store Storage) (k : Key) (v : Zval) : Prop :=
  ∃ st, p.hash.find k = some st ∧ storageIsCacheable (some st) = true
    ∧ Denotes w st v

/-- The values that the connection `x` at `d` has or is about to have in
its local table are current. -/
structure Current (w : World) (d : Addr) (x : Conn) : Prop where
  cached : ∀ {k v}, x.z.loc.cached k = some v → Fits w x.o.props k v
  fill : ∀ {k v}, w.frame x.z.owner = .fill d k v →
    retainInLocalCache v = true → Fits w x.o.props k v

/-- The connection `d` is current whenever it is in sync. Nothing is said
about an object that is about to be freed. -/
def Coherent (d : Addr) (w : World) : Prop :=
  ∀ x, w.conn d = some x → d ∉ (w.frame x.z.owner).batch →
    x.z.loc.modcount = x.o.props.modcount → Current w d x

/-- The step makes no mutation through `d`, and no full sync visits it. -/
def ReadsOnly (d : Addr) (w : World) (act : Act) (w' : World) : Prop :=
  ¬ mutates d act
    ∧ ((∃ c fuel, act = .fullSync c fuel ∨ act = .join c fuel) →
      w'.locOf d = w.locOf d)

/-- A step that does not bump the count keeps what fits. -/
theorem Fits.step {act : Act} {s : TsAddr} {p p' : Store Storage} {k : Key}
    {v : Zval} (h : Fits w p k v) (hs : Skel w) (hown : OwnInv w)
    (hstep : step E w act = some w') (hp : StoreStep w s act p p')
    (hm : p'.modcount = p.modcount) (hv : Held w' t v) :
    Fits w' p' k v := by
  obtain ⟨st, hst, hc, hd⟩ := h
  have hd' := hd.step hs hown hstep hv
  rcases hp.safe hm k st hst hc with hst' | ⟨t', st', -, hper, hst'⟩
  · exact ⟨st, hst', hc, hd'⟩
  · obtain ⟨q, b, hq, hb⟩ := hper
    rw [hq] at hd'
    exact ⟨st', hst', by rw [hb]; rfl, by rw [hb]; exact hd'⟩

/-- What the table holds after a sync is current. -/
theorem Coherent.sync {d : Addr} (h : Coherent d w) (hs : Skel w)
    (haddr : AddrInv w) (hown : OwnInv w) {x : Conn}
    (hx : w.conn d = some x) (hb : d ∉ (w.frame x.z.owner).batch) {k : Key}
    {v : Zval}
    (hv : (w.syncLocal x.z.owner x.o.props x.z.loc).cached k = some v) :
    Fits w x.o.props k v := by
  obtain ⟨hz, -, ho⟩ := conn_eq_some.mp hx
  rw [cached_syncLocal] at hv
  split at hv
  case isTrue hm => exact (h x hx hb hm).cached hv
  case isFalse =>
    obtain ⟨hv, hkeep⟩ := Option.filter_eq_some_iff.mp hv
    cases hst : x.o.props.hash.find k with
    | none =>
        rw [hst] at hkeep
        cases hkeep
    | some st =>
        rw [hst] at hkeep
        obtain ⟨hc, hd⟩ := keep_denotes hs (sound_of_entry haddr hown
          ((entry_eq ho k).trans hst)) hkeep
          ((hown x.z.owner).cached hz rfl hb hv).1
        exact ⟨st, hst, hc, hd⟩

section Step

variable {act : Act} {d : Addr} {x : Conn} {l : Local} {p : Store Storage}
  (hs : Skel w) (haddr : AddrInv w) (hown : OwnInv w) (hbeh : Behind w)
  (h : Coherent d w) (hro : ReadsOnly d w act w') (hx : w.conn d = some x)
  (hb : d ∉ (w.frame x.z.owner).batch)

include hs haddr hown hbeh h hro hx hb

/-- A connection that is in sync after a step had a current table: the
one it had, or what a sync left of it. -/
theorem ConnStep.fits (hc : ConnStep E w d x act w' l p)
    (hp : x.o.props.modcount ≤ p.modcount)
    (hm : l.modcount = p.modcount) :
    p.modcount = x.o.props.modcount
      ∧ ∀ {k v}, l.cached k = some v → Fits w x.o.props k v := by
  have hsync : ∀ {l : Local}, (∀ k, l.cached k
        = (w.syncLocal x.z.owner x.o.props x.z.loc).cached k) →
      ∀ {k v}, l.cached k = some v → Fits w x.o.props k v := by
    intro l hl k v hv
    rw [hl] at hv
    exact h.sync hs haddr hown hx hb hv
  have hle := hbeh d x hx
  cases hc with
  | same hf =>
      have heq : x.z.loc.modcount = x.o.props.modcount := by omega
      exact ⟨by omega, fun hv => (h x hx hb heq).cached hv⟩
  | read _ _ => exact ⟨rfl, hsync (cached_readSync w x)⟩
  | readFill _ _ _ _ => exact ⟨rfl, hsync (cached_readSync w x)⟩
  | sync _ _ => exact ⟨rfl, hsync fun _ => rfl⟩
  | tohash _ _ _ hl =>
      rcases hl with rfl | ⟨-, rfl⟩
      · exact ⟨rfl, hsync (cached_tohashSync w x)⟩
      · change x.o.props.modcount - 1 = _ at hm
        omega
  | write _ _ _ _ => exact absurd rfl hro.1
  | trim _ hact _ _ _ _ => exact absurd hact hro.1
  | @fill k v _ hi hf =>
      rw [Local.modcount_updateLocalProperty] at hm
      refine ⟨rfl, fun {k' v'} hv => ?_⟩
      rw [Local.cached_updateLocalProperty] at hv
      split at hv
      case isTrue hk =>
        rw [hk.1, ← Option.some.inj hv]
        exact (h x hx hb hm).fill hi hk.2
      case isFalse => exact (h x hx hb hm).cached hv
  | @drop k _ hi hf =>
      refine ⟨rfl, fun {k' v'} hv => ?_⟩
      rw [Local.cached_del] at hv
      split at hv
      · cases hv
      · exact (h x hx hb hm).cached hv
  | syncs hi hact hsy hl =>
      have hsame := hro.2 (by
        rcases hact with ⟨c, fuel, rfl⟩ | ⟨c, fuel, rfl⟩
        · exact ⟨c, fuel, Or.inl rfl⟩
        · exact ⟨c, fuel, Or.inr rfl⟩)
      have hlx : l = x.z.loc := by
        unfold locOf at hl hsame
        rw [hl, (conn_eq_some.mp hx).1] at hsame
        exact Option.some.inj hsame
      rw [hlx] at hm ⊢
      exact ⟨rfl, fun hv => (h x hx hb hm).cached hv⟩

/-- And so was the value it is about to put there, unless the step is
the read that restored it. -/
theorem ConnStep.fits_fill (hc : ConnStep E w d x act w' l p)
    (hp : x.o.props.modcount ≤ p.modcount)
    (hm : l.modcount = p.modcount) {k : Key} {v : Zval}
    (hf' : w'.frame x.z.owner = .fill d k v)
    (hv : retainInLocalCache v = true) :
    Fits w x.o.props k v ∨ Fits w' p k v := by
  have hidle : w'.frame x.z.owner = .idle →
      Fits w x.o.props k v ∨ Fits w' p k v := by
    intro hi
    rw [hf'] at hi
    cases hi
  have hle := hbeh d x hx
  cases hc with
  | same hf =>
      have heq : x.z.loc.modcount = x.o.props.modcount := by omega
      rcases hf with hf | ⟨-, hoff⟩
      · exact Or.inl ((h x hx hb heq).fill (hf ▸ hf') hv)
      · rw [hf'] at hoff
        exact absurd rfl hoff
  | read _ hf => exact hidle hf
  | @readFill k' _ u v' st hi hn hst hr =>
      rw [frame_setFrame] at hf'
      injection hf' with _ hk hvv
      rw [hk] at hst
      rw [hvv] at hr
      obtain ⟨-, -, ho⟩ := conn_eq_some.mp hx
      have hsound := (sound_of_entry haddr hown
        ((entry_eq ho k).trans hst)).setLocal d (w.readSync x)
      have hd := restoreZval_denotes
        (hs.same (sameSkel_setLocal w d (w.readSync x)) rfl) hsound hr
      exact Or.inr ⟨st, hst, cacheable_of_restored hr hv,
        hd.mono (fun _ _ _ h => h) (.refl _) fun _ _ _ h => h⟩
  | sync _ hf => exact hidle hf
  | tohash _ hf _ _ => exact hidle hf
  | write _ _ _ _ => exact absurd rfl hro.1
  | trim _ hact _ _ _ _ => exact absurd hact hro.1
  | fill _ hf => exact hidle hf
  | drop _ hf => exact hidle hf
  | syncs hi _ hsy _ =>
      refine hidle ?_
      rw [(hsy.extends (hs.connecting _)).frame]
      exact hi

end Step

/-- A full sync that does not reach `d` does not create it. -/
theorem conn_of_locOf (hs : Skel w) (hext : Extends w w') {d : Addr}
    (hl : w'.locOf d = w.locOf d) {x' : Conn} (hx' : w'.conn d = some x') :
    ∃ x, w.conn d = some x := by
  obtain ⟨hz', hts', -⟩ := conn_eq_some.mp hx'
  unfold locOf at hl
  rw [hz'] at hl
  cases hz : w.mem.get d with
  | none =>
      rw [hz] at hl
      cases hl
  | some z =>
      obtain ⟨l, hzl⟩ := hext.mem hz
      rw [hz'] at hzl
      refine hs.conn hz (s := x'.s) ?_
      rw [Option.some.inj hzl] at hts'
      exact hts'

theorem step_coherent {act : Act} {d : Addr} (hs : Skel w)
    (haddr : AddrInv w) (hown : OwnInv w) (hbeh : Behind w)
    (h : Coherent d w) (hstep : step E w act = some w')
    (hro : ReadsOnly d w act w') : Coherent d w' := by
  intro x' hx' hb' hm'
  have hown' := step_own hs hown hstep
  cases hx : w.conn d with
  | none =>
      by_cases hact : ∀ c' fuel, act ≠ .fullSync c' fuel
          ∧ act ≠ .join c' fuel
      · have hlt := step_new hs hstep hact hx hx'
        omega
      · obtain ⟨t, -, hsy⟩ := step_syncs hs hown hstep hact
        have hl := hro.2 (by
          refine Classical.not_not.mp fun hno => hact fun c' fuel =>
            ⟨fun he => hno ⟨c', fuel, Or.inl he⟩,
              fun he => hno ⟨c', fuel, Or.inr he⟩⟩)
        obtain ⟨x, hx''⟩ := conn_of_locOf hs
          (hsy.extends (hs.connecting t)) hl hx'
        rw [hx] at hx''
        cases hx''
  | some x =>
      obtain ⟨ho, hss, hst, hcs⟩ := step_pair hs hown hstep hx hx'
      obtain ⟨hz', -, -⟩ := conn_eq_some.mp hx'
      rw [ho] at hb'
      have hb : d ∉ (w.frame x.z.owner).batch := by
        intro hd
        rcases step_batch hs hstep hd with hf | hd'
        · exact not_freesAt hs hstep hx' hf
        · exact hb' hd'
      obtain ⟨hm, hfits⟩ :=
        hcs.fits hs haddr hown hbeh h hro hx hb hst.mono hm'
      refine ⟨fun {k v} hv => ?_, fun {k v} hf hv => ?_⟩
      · exact (hfits hv).step hs hown hstep hst hm
          ((hown' x.z.owner).cached hz' ho hb' hv).1
      · rw [ho] at hf
        rcases hcs.fits_fill hs haddr hown hbeh h hro hx hb hst.mono hm' hf hv
          with hfit | hfit
        · refine hfit.step (t := x.z.owner) hs hown hstep hst hm ?_
          have hfr := (hown' x.z.owner).frame
          rw [hf] at hfr
          exact hfr
        · exact hfit

/-- All invariants of a run in which `d` is only read. -/
theorem run_coherent (hA : E.object.NoReuse) {acts : List Act} {d : Addr}
    (hrun : run E init acts = some w)
    (hro : AllSteps E (ReadsOnly d) init acts) :
    Skel w ∧ AddrInv w ∧ OwnInv w ∧ Coherent d w := by
  have hall := AllSteps.run_induct (E := E) (P := ReadsOnly d)
    (I := fun w => Skel w ∧ AddrInv w ∧ OwnInv w ∧ Behind w ∧ Coherent d w)
    (fun w act w' hi hstep hp => by
      obtain ⟨hs, haddr, hown, hbeh, hcoh⟩ := hi
      exact ⟨step_skel hs hstep, step_addrInv hs haddr hstep
        (haddr.freshStep (step_fresh hA hs hstep)), step_own hs hown hstep,
        step_behind hs hown hbeh hstep,
        step_coherent hs haddr hown hbeh hcoh hstep hp⟩)
    acts ⟨skel_init, addrInv_init, ownOf_init, fun _ _ h => (nomatch h),
      fun _ h => (nomatch h)⟩ hro hrun
  exact ⟨hall.1, hall.2.1, hall.2.2.1, hall.2.2.2.2⟩

-- ================================================================ reads

theorem readShared_restored {x : Conn} {k : Key} {access : Access}
    {v : Zval} {u : World}
    (h : w.readShared E x k access = (.restored v, u)) :
    ∃ st, x.o.props.hash.find k = some st
      ∧ w.restoreZval E x.z.owner st = (.value v, u) := by
  unfold readShared at h
  simp only [] at h
  split at h
  · cases h
  · split at h
    · cases h
    case h_2 st hst =>
      split at h
      case h_1 v' w' hr =>
        injection h with hv hu
        injection hv with hv
        exact ⟨st, hst, by rw [hr, hv, hu]⟩
      case h_2 => cases h
      case h_3 => cases h

theorem readShared_absent {x : Conn} {k : Key} {access : Access} {u : World}
    (h : w.readShared E x k access = (.absent, u)) :
    x.o.props.hash.find k = none := by
  unfold readShared at h
  simp only [] at h
  split at h
  · cases h
  · split at h
    case h_1 hst => exact hst
    case h_2 =>
      split at h <;> cases h

theorem readShared_ne_cached {x : Conn} {k : Key} {access : Access}
    {v : Zval} {u : World} :
    w.readShared E x k access ≠ (.cached v, u) := by
  intro h
  unfold readShared at h
  simp only [] at h
  split at h
  · cases h
  · split at h
    · cases h
    · split at h <;> cases h

/-- What the table answers is what the store denotes, for a connection
that is only read. -/
theorem Coherent.read {d : Addr} (h : Coherent d w) (hs : Skel w)
    (haddr : AddrInv w) (hown : OwnInv w) {x : Conn}
    (hx : w.ready d = some x) {k : Key} {access : Access} {v : Zval}
    {u : World} (hr : w.readLocked E d k access = (.cached v, u)
      ∨ w.readLocked E d k access = (.restored v, u)) :
    ∃ st, w.entry x.s k = some st ∧ Denotes u st v := by
  obtain ⟨hc, hi⟩ := ready_eq_some.mp hx
  obtain ⟨-, -, ho⟩ := conn_eq_some.mp hc
  have hb : d ∉ (w.frame x.z.owner).batch := by
    rw [hi]
    exact List.not_mem_nil
  unfold readLocked at hr
  simp only [hc] at hr
  cases hv : (w.readSync x).cached k with
  | some v' =>
      rw [hv] at hr
      rcases hr with hr | hr
      · injection hr with hvv hu
        injection hvv with hvv
        rw [hvv, cached_readSync] at hv
        obtain ⟨st, hst, -, hd⟩ := h.sync hs haddr hown hc hb hv
        refine ⟨st, (entry_eq ho k).trans hst, ?_⟩
        rw [← hu]
        exact hd.extends (extends_modify_loc w d fun _ => w.readSync x)
      · cases hr
  | none =>
      rw [hv] at hr
      rcases hr with hr | hr
      · exact absurd hr readShared_ne_cached
      · obtain ⟨st, hst, hr⟩ := readShared_restored hr
        have he := (entry_eq ho k).trans hst
        exact ⟨st, he, restoreZval_denotes
          (hs.same (sameSkel_setLocal w d (w.readSync x)) rfl)
          ((sound_of_entry haddr hown he).setLocal d _) hr⟩

/-- Cache coherence across threads. In every run, of any threads, in
which nothing but reads is made through the connection `d` (and no
address of an object is used twice), a read through `d` that yields a
value, from the local table or restored, yields one that the storage in
the shared table denotes at that moment; and it finds nothing only if
there is nothing. -/
theorem reads_never_stale (E : Engine) (hA : E.object.NoReuse)
    (acts : List Act) (w : World) (d : Addr)
    (hrun : run E init acts = some w)
    (hro : AllSteps E (ReadsOnly d) init acts) (x : Conn)
    (hx : w.ready d = some x) (k : Key) (access : Access) :
    (∀ v u, w.readLocked E d k access = (.cached v, u)
        ∨ w.readLocked E d k access = (.restored v, u) →
      ∃ st, w.entry x.s k = some st ∧ Denotes u st v)
    ∧ ∀ u, w.readLocked E d k access = (.absent, u) →
      w.entry x.s k = none := by
  obtain ⟨hs, haddr, hown, hcoh⟩ := run_coherent hA hrun hro
  refine ⟨fun v u hr => hcoh.read hs haddr hown hx hr, fun u hr => ?_⟩
  obtain ⟨hc, -⟩ := ready_eq_some.mp hx
  obtain ⟨-, -, ho⟩ := conn_eq_some.mp hc
  unfold readLocked at hr
  simp only [hc] at hr
  split at hr
  · cases hr
  · exact (entry_eq ho k).trans (readShared_absent hr)

/-- Thread 1 stores a string under key 0, thread 2 reads it through its
own connection 2, and thread 1 overwrites it with another string. -/
def overwriteString : List Act :=
  [.alloc 1 [] .threaded [], .ctor 1, .newString 1 [97],
    .write 1 (some (.long 0)) (.string 1), .finish 1, .connect 2 1,
    .read 2 (.long 0) .r, .finish 2, .newString 1 [98],
    .write 1 (some (.long 0)) (.string 3), .finish 1]

theorem reads_never_stale_overwriteString :
    ∃ w u, run (demoEngine .bump) init overwriteString = some w
      ∧ w.cachedAt 2 (.long 0) = some (.string 2)
      ∧ w.readLocked (demoEngine .bump) 2 (.long 0) .r
        = (.restored (.string 4), u)
      ∧ ∃ st, w.entry 1 (.long 0) = some st ∧ Denotes u st (.string 4) := by
  have hview : (run (demoEngine .bump) init overwriteString).map
      (fun w => ((w.ready 2).map Conn.s, w.cachedAt 2 (.long 0),
        (w.readLocked (demoEngine .bump) 2 (.long 0) .r).1))
      = some (some 1, some (.string 2), .restored (.string 4)) := by
    decide
  obtain ⟨w, hw, hv⟩ := Option.map_eq_some_iff.mp hview
  obtain ⟨hready, hv⟩ := Prod.mk.inj hv
  obtain ⟨hcached, hread⟩ := Prod.mk.inj hv
  obtain ⟨x, hx, hxs⟩ := Option.map_eq_some_iff.mp hready
  have hro : AllSteps (demoEngine .bump) (ReadsOnly 2) init
      overwriteString := by
    refine .of_forall fun act hact w w' => ?_
    unfold overwriteString at hact
    simp only [List.mem_cons, List.not_mem_nil, or_false] at hact
    rcases hact with h | h | h | h | h | h | h | h | h | h | h
      <;> rw [h] <;> simp [ReadsOnly, mutates]
  rcases hr : w.readLocked (demoEngine .bump) 2 (.long 0) .r with ⟨r, u⟩
  rw [hr] at hread
  change r = _ at hread
  subst hread
  refine ⟨w, u, hw, hcached, hr, ?_⟩
  have hst := (reads_never_stale (demoEngine .bump) Allocator.bump_noReuse
    overwriteString w 2 hw hro x hx (.long 0) .r).1 (.string 4) u
    (Or.inr hr)
  rw [hxs] at hst
  exact hst

end PmmpThread.Model.World
