/-
The strings that threads share, in memory and as values. A string that a
table owns is owned by one entry of one table, so a call frees nothing
that another entry has, and the tables are what finite maps of values
would be.

An entry has up to three strings: its key's and its value's. What a call
does to memory is said once for each function, by what it leaves alone:
`Keeps` for the calls that free, `Extends` for those that allocate.
`Good.change` is the one place where the invariant is checked; the calls
are uses of it.

# Shared names

A merge gives the names of an enum case a second owner. `Good False` is
the invariant where there is no such merge. In `Good True` entries of one
key may have names in common, and each call must be one that frees none
of those (`State.Sole`).
-/
import PmmpThread.Model.SharedStrings

namespace PmmpThread.Model.SharedStrings

open Zend Heap

variable {V : Type} {A : Allocator} {h h' h'' : Memory} {s s' : State V}
  {a : TsAddr} {k : Key} {shared : Prop}

-- ============================================================ memory

abbrev Keeps (mine : Nat → Prop) (h h' : Memory) : Prop :=
  Heap.Keeps ZString.permanent mine h h'

abbrev Apart (h : Memory) (p q : Nat) : Prop :=
  Heap.Apart ZString.permanent h p q

/-- A string for `bytes` at `p`: a permanent one, or a new one. -/
structure Fresh (h h' : Memory) (p : Nat) (bytes : Bytes) : Prop where
  keeps : Extends h h'
  get : ∃ x, h'.get p = some x ∧ x.bytes = bytes
    ∧ (x.permanent = true ∨ h.get p = none)

theorem saveString_fresh {str : Arg} (hv : str.Valid h) :
    Fresh h (saveString A h str).2 (saveString A h str).1 str.bytes := by
  unfold saveString
  cases hp : str.permanentAt with
  | some p => exact ⟨.refl h, _, hv p hp, rfl, .inl rfl⟩
  | none =>
      exact ⟨extends_place _ _ _, _, Heap.get_place_self _ _ _, rfl,
        .inr (Heap.get_next A h)⟩

theorem argAt_valid {p : Nat} {x : ZString} (hp : h.get p = some x) :
    ∃ str, argAt h p = some str ∧ str.bytes = x.bytes ∧ str.Valid h := by
  unfold argAt
  rw [hp]
  refine ⟨_, rfl, rfl, fun q hq => ?_⟩
  by_cases hx : x.permanent = true
  · simp only [hx, if_true, Option.some.injEq] at hq
    rw [← hq, hp, ← hx]
  · simp only [hx] at hq
    cases hq

-- ============================================================= values

def Saved.strings : Saved V → List Nat
  | .plain _ | .stringPtr _ _ => []
  | .string p => [p]
  | .enumCase cls member => [cls, member]

theorem Saved.strings_of_names {v : Saved V} {p : Nat} (hp : p ∈ v.names) :
    p ∈ v.strings := by
  cases v with
  | enumCase cls member => exact hp
  | _ => cases hp

theorem storageDtor_eq (h : Memory) (v : Saved V) :
    storageDtor h v = v.strings.foldlM freeString h := by
  cases v with
  | plain v => rfl
  | stringPtr owner bytes => rfl
  | string p => exact (Option.bind_fun_some (freeString h p)).symm
  | enumCase cls member =>
      exact congrArg ((freeString h cls).bind) (funext fun h₁ =>
        (Option.bind_fun_some (freeString h₁ member)).symm)

theorem restoreZval_congr {v : Saved V}
    (hsame : ∀ p ∈ v.strings, h'.get p = h.get p) :
    restoreZval h' v = restoreZval h v := by
  cases v with
  | plain v => rfl
  | stringPtr owner bytes => rfl
  | string p =>
      simp only [restoreZval, hsame p List.mem_cons_self]
  | enumCase cls member =>
      simp only [restoreZval, hsame cls List.mem_cons_self,
        hsame member (List.mem_cons_of_mem _ List.mem_cons_self)]

/-- A value with all its strings reads as something. -/
theorem restoreZval_live {v : Saved V}
    (hlive : ∀ p ∈ v.strings, ∃ x, h.get p = some x) :
    ∃ c, restoreZval h v = some c := by
  cases v with
  | plain v => exact ⟨_, rfl⟩
  | stringPtr owner bytes => exact ⟨_, rfl⟩
  | string p =>
      obtain ⟨x, hx⟩ := hlive p List.mem_cons_self
      exact ⟨.string x.bytes, congrArg (Option.map _) hx⟩
  | enumCase cls member =>
      obtain ⟨x, hx⟩ := hlive cls List.mem_cons_self
      obtain ⟨y, hy⟩ :=
        hlive member (List.mem_cons_of_mem _ List.mem_cons_self)
      refine ⟨.enumCase x.bytes y.bytes, ?_⟩
      simp only [restoreZval, hx, hy, Option.bind_some, Option.map_some]

theorem restoreZval_strings {v : Saved V} {c : Content V}
    (hc : restoreZval h v = some c) :
    ∀ p ∈ v.strings, ∃ x, h.get p = some x := by
  intro p hp
  cases v with
  | plain v => cases hp
  | stringPtr owner bytes => cases hp
  | string q =>
      obtain rfl := List.mem_singleton.mp hp
      obtain ⟨x, hx, -⟩ := Option.map_eq_some_iff.mp hc
      exact ⟨x, hx⟩
  | enumCase cls member =>
      obtain ⟨x, hx, hc⟩ := Option.bind_eq_some_iff.mp hc
      obtain ⟨y, hy, -⟩ := Option.map_eq_some_iff.mp hc
      rcases List.mem_cons.mp hp with rfl | hp
      · exact ⟨x, hx⟩
      · obtain rfl := List.mem_singleton.mp hp
        exact ⟨y, hy⟩

/-- A value that is to be put into a table: it reads as `c`, and its
strings are permanent, new, or names that are lent. -/
structure Pending (lent : Nat → Prop) (h h' : Memory) (v : Saved V)
    (c : Content V) : Prop where
  keeps : Extends h h'
  strings : ∀ p ∈ v.strings, ∃ x, h'.get p = some x
    ∧ (x.permanent = true ∨ h.get p = none ∨ (p ∈ v.names ∧ lent p))
  apart : v.strings.Pairwise (Apart h')
  content : restoreZval h' v = some c

variable {lent : Nat → Prop}

theorem Pending.plain (v : V) :
    Pending lent h h (.plain v) (.plain v) where
  keeps := .refl h
  strings p hp := by cases hp
  apart := .nil
  content := rfl

theorem Pending.stringPtr (owner : ThreadId) (bytes : Bytes) :
    Pending lent h h (.stringPtr owner bytes : Saved V) (.string bytes) where
  keeps := .refl h
  strings p hp := by cases hp
  apart := .nil
  content := rfl

theorem Fresh.restores {p : Nat} {bytes : Bytes} (hf : Fresh h h' p bytes) :
    restoreZval h' (.string p : Saved V) = some (.string bytes) := by
  obtain ⟨x, hx, rfl, -⟩ := hf.get
  simp only [restoreZval, hx, Option.map_some]

theorem Fresh.pending {p : Nat} {bytes : Bytes} (hf : Fresh h h' p bytes) :
    Pending lent h h' (.string p : Saved V) (.string bytes) := by
  obtain ⟨x, hx, -, hown⟩ := hf.get
  refine ⟨hf.keeps, fun q hq => ?_, List.pairwise_singleton _ _, hf.restores⟩
  obtain rfl := List.mem_singleton.mp hq
  exact ⟨x, hx, hown.imp_right .inl⟩

theorem Pending.enumCase {c m : Nat} {cls member : Bytes}
    (hc : Fresh h h' c cls) (hm : Fresh h' h'' m member) :
    Pending lent h h'' (.enumCase c m : Saved V)
      (.enumCase cls member) := by
  obtain ⟨x, hx, hcb, hcown⟩ := hc.get
  obtain ⟨y, hy, hmb, hmown⟩ := hm.get
  have hx' := hm.keeps.live hx
  refine ⟨hc.keeps.trans hm.keeps, fun p hp => ?_, ?_, ?_⟩
  · rcases List.mem_cons.mp hp with rfl | hp
    · exact ⟨x, hx', hcown.imp_right .inl⟩
    · obtain rfl := List.mem_singleton.mp hp
      refine ⟨y, hy, hmown.imp_right fun hnone => .inl ?_⟩
      cases hp : h.get p with
      | none => rfl
      | some z => exact absurd (hc.keeps.live hp) (by rw [hnone]; nofun)
  · refine List.pairwise_pair.mpr fun z hz => ?_
    obtain rfl := Option.some.inj (hx'.symm.trans hz)
    -- the second name was allocated when the first one was there
    by_cases hcm : c = m
    · subst hcm
      obtain rfl := Option.some.inj (hx'.symm.trans hy)
      refine .inl (hmown.resolve_right fun hnone => ?_)
      rw [hx] at hnone
      cases hnone
    · exact .inr hcm
  · simp only [restoreZval, hx', hy, hcb, hmb, Option.bind_some,
      Option.map_some]

theorem saveZval_pending {v : Written V} (hv : v.Valid h) :
    Pending lent h (saveZval A h v).2 (saveZval A h v).1 v.content := by
  cases v with
  | plain v => exact .plain v
  | string owner str =>
      cases hp : str.permanentAt with
      | none =>
          simp only [saveZval, hp]
          exact .stringPtr owner str.bytes
      | some p =>
          simp only [saveZval, hp]
          exact Fresh.pending ⟨.refl h, _, hv p hp, rfl, .inl rfl⟩
  | enumCase cls member =>
      have hc := saveString_fresh (A := A) hv.1
      exact .enumCase hc (saveString_fresh fun p hp =>
        hc.keeps.live (hv.2 p hp))

/-- The names of an enum case that a copy shares are permanent or lent. -/
theorem hardCopyStorage_pending {v : Saved V} {c : Content V}
    (hc : restoreZval h v = some c) (hapart : v.strings.Pairwise (Apart h))
    (hnames : ∀ p ∈ v.names, (∃ b, h.get p = some ⟨b, true⟩) ∨ lent p) :
    ∃ r, hardCopyStorage A h v = some r ∧ Pending lent h r.2 r.1 c := by
  cases v with
  | plain v =>
      obtain rfl := Option.some.inj hc
      exact ⟨_, rfl, .plain v⟩
  | stringPtr owner bytes =>
      obtain rfl := Option.some.inj hc
      exact ⟨_, rfl, (saveString_fresh fun _ hp => by cases hp).pending⟩
  | string p =>
      obtain ⟨x, hx, rfl⟩ := Option.map_eq_some_iff.mp hc
      obtain ⟨str, hstr, hb, hvalid⟩ := argAt_valid hx
      refine ⟨_, congrArg (Option.map _) hstr, ?_⟩
      rw [← hb]
      exact (saveString_fresh hvalid).pending
  | enumCase cls member =>
      refine ⟨_, rfl, .refl h, fun p hp => ?_, hapart, hc⟩
      obtain ⟨x, hx⟩ := restoreZval_strings hc p hp
      refine ⟨x, hx, (hnames p hp).imp ?_ fun hlent => .inr ⟨hp, hlent⟩⟩
      rintro ⟨b, hb⟩
      rw [← Option.some.inj (hb.symm.trans hx)]

-- ============================================================ entries

def Bucket.strings (b : Bucket V) : List Nat :=
  b.key.toList ++ b.value.strings

theorem freeBucket_eq (h : Memory) (b : Bucket V) :
    freeBucket h b = b.strings.foldlM freeString h := by
  unfold freeBucket Bucket.strings
  cases b.key with
  | none =>
      rw [Option.bind_some, storageDtor_eq]
      rfl
  | some p =>
      simp only [storageDtor_eq]
      rfl

/-- The string of the key says what the key is. -/
def KeyIs (h : Memory) : Key → Option Nat → Prop
  | .long _, p => p = none
  | .str bytes, p => ∃ q x, p = some q ∧ h.get q = some x ∧ x.bytes = bytes

theorem KeyIs.keeps {p : Option Nat} (hk : KeyIs h k p)
    (hsame : ∀ q x, p = some q → h.get q = some x → h'.get q = some x) :
    KeyIs h' k p := by
  cases k with
  | long n => exact hk
  | str bytes =>
      obtain ⟨q, x, rfl, hx, hb⟩ := hk
      exact ⟨q, x, rfl, hsame q x rfl hx, hb⟩

theorem KeyIs.live {p : Option Nat} (hk : KeyIs h k p) {q : Nat}
    (hq : q ∈ p.toList) : ∃ x, h.get q = some x := by
  cases k with
  | long n =>
      obtain rfl := hk
      cases hq
  | str bytes =>
      obtain ⟨r, x, rfl, hx, -⟩ := hk
      obtain rfl := List.mem_singleton.mp hq
      exact ⟨x, hx⟩

theorem bucketKey_valid {b : Bucket V} (hk : KeyIs h k b.key) :
    ∃ ka, bucketKey h k b = some ka ∧ ka.key = k ∧ ka.Valid h := by
  cases k with
  | long n => exact ⟨.long n, rfl, rfl, trivial⟩
  | str bytes =>
      obtain ⟨q, x, hq, hx, rfl⟩ := hk
      obtain ⟨str, hstr, hb, hvalid⟩ := argAt_valid hx
      refine ⟨.str str, ?_, congrArg Key.str hb, hvalid⟩
      simp only [bucketKey, hq, hstr, Option.map_some]

/-- The string of a new key is permanent or new. -/
theorem newKey_fresh {ka : KeyArg} (hv : ka.Valid h) :
    Extends h (newKey A h ka).2
      ∧ KeyIs (newKey A h ka).2 ka.key (newKey A h ka).1
      ∧ ∀ p ∈ (newKey A h ka).1.toList, ∃ x,
        (newKey A h ka).2.get p = some x
          ∧ (x.permanent = true ∨ h.get p = none) := by
  cases ka with
  | long n => exact ⟨.refl h, rfl, fun p hp => by cases hp⟩
  | str str =>
      have hf := saveString_fresh (A := A) hv
      obtain ⟨x, hx, hb, hown⟩ := hf.get
      refine ⟨hf.keeps, ⟨_, x, rfl, hx, hb⟩, fun p hp => ?_⟩
      obtain rfl := List.mem_singleton.mp hp
      exact ⟨x, hx, hown⟩

-- =========================================================== invariant

/-- What the tables have, read through the memory. -/
def State.contents (s : State V) : Contents V := fun a k =>
  ((s.tables a).find k).bind fun b => restoreZval s.memory b.value

/-- Each string that is not permanent is in one entry, in one place; where
names are shared, a name may be in entries of one key. -/
structure Good (shared : Prop) (s : State V) : Prop where
  live : ∀ {a k b p}, (s.tables a).find k = some b → p ∈ b.strings →
    ∃ x, s.memory.get p = some x
  apart : ∀ {a k b}, (s.tables a).find k = some b →
    b.strings.Pairwise (Apart s.memory)
  unique : ∀ {a k b a' k' b' p x}, (s.tables a).find k = some b →
    p ∈ b.strings → (s.tables a').find k' = some b' → p ∈ b'.strings →
    s.memory.get p = some x → x.permanent = false →
    (a' = a ∧ k' = k) ∨ (shared ∧ k' = k ∧ p ∈ b'.value.names)
  key : ∀ {a k b}, (s.tables a).find k = some b → KeyIs s.memory k b.key
  interned : ∀ {bytes p}, s.engine bytes = some p
    ∨ s.interned bytes = some p → s.memory.get p = some ⟨bytes, true⟩

/-- Another entry has the string. -/
def State.Elsewhere (s : State V) (a : TsAddr) (k : Key) (p : Nat) : Prop :=
  ∃ a' k' b, ¬ (a' = a ∧ k' = k) ∧ (s.tables a').find k' = some b
    ∧ p ∈ b.strings

/-- The others that have the string are entries of the same key, for which
it is a name. -/
def State.Lent (shared : Prop) (s : State V) (a : TsAddr) (k : Key)
    (p : Nat) : Prop :=
  shared ∧ ∀ {a' k' b}, ¬ (a' = a ∧ k' = k) →
    (s.tables a').find k' = some b → p ∈ b.strings →
    k' = k ∧ p ∈ b.value.names

/-- One entry of one table is changed: it is now `c`, and everything else
reads as before. -/
structure Changed (shared : Prop) (s s' : State V) (a : TsAddr) (k : Key)
    (c : Option (Content V)) : Prop where
  good : Good shared s'
  contents : s'.contents = s.contents.set a k c
  permanent : ∀ {p b}, s.memory.get p = some ⟨b, true⟩ →
    s'.memory.get p = some ⟨b, true⟩
  others : ∀ {a' k'}, ¬ (a' = a ∧ k' = k) →
    (s'.tables a').find k' = (s.tables a').find k'

theorem find_setTable {t : HashTable (Bucket V)}
    (hne : ∀ {k'}, k' ≠ k → t.find k' = (s.tables a).find k')
    (a' : TsAddr) (k' : Key) :
    ((s.setTable a h t).tables a').find k'
      = if a' = a ∧ k' = k then t.find k else (s.tables a').find k' := by
  change (Function.update s.tables a t a').find k' = _
  by_cases ha : a' = a
  · subst ha
    rw [Function.update_self]
    by_cases hk : k' = k
    · rw [if_pos ⟨rfl, hk⟩, hk]
    · rw [if_neg fun h => hk h.2, hne hk]
  · rw [Function.update_of_ne ha, if_neg fun h => ha h.1]

/-- A change of one entry that leaves alone what other entries have, and
puts nothing into the entry that another one owns alone. -/
theorem Good.change (hs : Good shared s) {t : HashTable (Bucket V)}
    {c : Option (Content V)}
    (hne : ∀ {k'}, k' ≠ k → t.find k' = (s.tables a).find k')
    (hkeep : Keeps (fun p => ¬ s.Elsewhere a k p) s.memory h)
    (hkey : ∀ b, t.find k = some b → KeyIs h k b.key)
    (hapart : ∀ b, t.find k = some b → b.strings.Pairwise (Apart h))
    (hnew : ∀ b, t.find k = some b → ∀ p ∈ b.strings, ∃ x,
      h.get p = some x ∧ (x.permanent = true ∨ ¬ s.Elsewhere a k p
        ∨ (p ∈ b.value.names ∧ s.Lent shared a k p)))
    (hc : ((t.find k).bind fun b => restoreZval h b.value) = c) :
    Changed shared s (s.setTable a h t) a k c := by
  have hfind := find_setTable (h := h) hne
  have hsame : ∀ {a' k' b p x}, ¬ (a' = a ∧ k' = k) →
      (s.tables a').find k' = some b → p ∈ b.strings →
      s.memory.get p = some x → h.get p = some x :=
    fun hn hb hp hx => hkeep.get hx
      (.inr (not_not_intro ⟨_, _, _, hn, hb, hp⟩))
  have hother : ∀ {a' k' b p}, ¬ (a' = a ∧ k' = k) →
      (s.tables a').find k' = some b → p ∈ b.strings →
      h.get p = s.memory.get p := fun hn hb hp => by
    obtain ⟨x, hx⟩ := hs.live hb hp
    rw [hx, hsame hn hb hp hx]
  refine ⟨⟨?_, ?_, ?_, ?_, ?_⟩, ?_, ?_, ?_⟩
  · intro a' k' b p hb hp
    rw [hfind] at hb
    split at hb
    case isTrue heq =>
      obtain ⟨x, hx, -⟩ := hnew b hb p hp
      exact ⟨x, hx⟩
    case isFalse hn =>
      obtain ⟨x, hx⟩ := hs.live hb hp
      exact ⟨x, hsame hn hb hp hx⟩
  · intro a' k' b hb
    rw [hfind] at hb
    split at hb
    case isTrue heq => exact hapart b hb
    case isFalse hn =>
      exact apart_congr (fun p hp => hother hn hb hp) (hs.apart hb)
  · intro a₁ k₁ b₁ a₂ k₂ b₂ p x hb₁ hp₁ hb₂ hp₂ hx hown
    rw [hfind] at hb₁ hb₂
    have hnot : ∀ {b}, t.find k = some b → p ∈ b.strings →
        ¬ s.Elsewhere a k p
          ∨ (p ∈ b.value.names ∧ s.Lent shared a k p) := fun hb hp => by
      obtain ⟨y, hy, hperm⟩ := hnew _ hb p hp
      obtain rfl := Option.some.inj (hy.symm.trans hx)
      exact hperm.resolve_left (by rw [hown]; exact Bool.false_ne_true)
    split at hb₁ <;> split at hb₂
    case isTrue.isTrue heq₁ heq₂ =>
      exact .inl ⟨heq₂.1.trans heq₁.1.symm, heq₂.2.trans heq₁.2.symm⟩
    case isTrue.isFalse heq hn =>
      rcases hnot hb₁ hp₁ with hno | ⟨-, hshared, hsame⟩
      · exact absurd ⟨_, _, _, hn, hb₂, hp₂⟩ hno
      · obtain ⟨hk, hname⟩ := hsame hn hb₂ hp₂
        exact .inr ⟨hshared, hk.trans heq.2.symm, hname⟩
    case isFalse.isTrue hn heq =>
      rcases hnot hb₂ hp₂ with hno | ⟨hname, hshared, hsame⟩
      · exact absurd ⟨_, _, _, hn, hb₁, hp₁⟩ hno
      · obtain ⟨hk, -⟩ := hsame hn hb₁ hp₁
        exact .inr ⟨hshared, heq.2.trans hk.symm, hname⟩
    case isFalse.isFalse hn₁ hn₂ =>
      exact hs.unique hb₁ hp₁ hb₂ hp₂
        ((hother hn₁ hb₁ hp₁).symm.trans hx) hown
  · intro a' k' b hb
    rw [hfind] at hb
    split at hb
    case isTrue heq =>
      rw [heq.2]
      exact hkey b hb
    case isFalse hn =>
      refine (hs.key hb).keeps fun q x hq hx => hsame hn hb ?_ hx
      unfold Bucket.strings
      rw [hq]
      exact List.mem_append_left _ List.mem_cons_self
  · intro bytes p hp
    exact hkeep.get (hs.interned hp) (.inl rfl)
  · funext a' k'
    change (((s.setTable a h t).tables a').find k').bind _
      = if a' = a ∧ k' = k then c else ((s.tables a').find k').bind
          fun b => restoreZval s.memory b.value
    rw [hfind]
    split
    · exact hc
    · next hn =>
      cases hb : (s.tables a').find k' with
      | none => rfl
      | some b =>
          exact restoreZval_congr fun p hp =>
            hother hn hb (List.mem_append_right _ hp)
  · exact fun hp => hkeep.get hp (.inl rfl)
  · intro a' k' hn
    rw [hfind, if_neg hn]

-- ============================================================== calls

/-- What the strings of one entry are, another does not have, unless they
are permanent. -/
theorem Good.not_elsewhere (hs : Good shared s) (hsole : s.Sole a k)
    {b : Bucket V} {p : Nat} {x : ZString}
    (hb : (s.tables a).find k = some b) (hp : p ∈ b.strings)
    (hx : s.memory.get p = some x) :
    x.permanent = true ∨ ¬ s.Elsewhere a k p := by
  cases hperm : x.permanent with
  | true => exact .inl rfl
  | false =>
      refine .inr ?_
      rintro ⟨a', k', b', hn, hb', hp'⟩
      -- a string that two entries have is a name of both
      obtain ⟨-, rfl, hname'⟩ :=
        (hs.unique hb hp hb' hp' hx hperm).resolve_left hn
      obtain ⟨-, -, hname⟩ := (hs.unique hb' hp' hb hp hx hperm).resolve_left
        fun h => hn ⟨h.1.symm, h.2.symm⟩
      rcases hsole b hb p hname with ⟨bytes, hforever⟩ | hno
      · obtain rfl := Option.some.inj (hforever.symm.trans hx)
        cases hperm
      · exact hno a' b' (fun h => hn ⟨h, rfl⟩) hb' hname'

/-- Without shared names each entry is the only one to have its own. -/
theorem Good.sole (hs : Good False s) (a : TsAddr) (k : Key) :
    s.Sole a k := by
  intro b hb p hp
  have hp := List.mem_append_right b.key.toList (Saved.strings_of_names hp)
  obtain ⟨⟨bytes, perm⟩, hx⟩ := hs.live hb hp
  cases perm with
  | true => exact .inl ⟨bytes, hx⟩
  | false =>
      refine .inr fun a' b' hn hb' hp' => ?_
      rcases hs.unique hb hp hb' (List.mem_append_right _
        (Saved.strings_of_names hp')) hx rfl with h | ⟨h, -⟩
      · exact hn h.1
      · exact h

theorem Good.elsewhere_live (hs : Good shared s) {p : Nat}
    (hp : s.Elsewhere a k p) : ∃ x, s.memory.get p = some x := by
  obtain ⟨a', k', b, -, hb, hp⟩ := hp
  exact hs.live hb hp

/-- A new string is not in a table. -/
theorem Good.new_not_elsewhere (hs : Good shared s) {p : Nat}
    (hp : s.memory.get p = none) : ¬ s.Elsewhere a k p := fun hn => by
  obtain ⟨x, hx⟩ := hs.elsewhere_live hn
  rw [hp] at hx
  cases hx

/-- What is freed of an entry is in no other. -/
theorem Good.keeps_elsewhere (hs : Good shared s) (hsole : s.Sole a k)
    {b : Bucket V} {ps : List Nat}
    (hb : (s.tables a).find k = some b) (hsub : ∀ p ∈ ps, p ∈ b.strings)
    (he : Extends s.memory h) (hk : Keeps (· ∈ ps) h h') :
    Keeps (fun p => ¬ s.Elsewhere a k p) s.memory h' where
  get {p x} hx hp := by
    refine hk.get (he.live hx) ?_
    by_cases hps : p ∈ ps
    · rcases hp with hperm | hn
      · exact .inl hperm
      · exact .inl
          ((hs.not_elsewhere hsole hb (hsub p hps) hx).resolve_right hn)
    · exact .inr hps

/-- A string that an entry may have. -/
def Own (s : State V) (a : TsAddr) (k : Key) (h : Memory) (p : Nat) : Prop :=
  ∃ x, h.get p = some x ∧ (x.permanent = true ∨ ¬ s.Elsewhere a k p)

/-- A string that the value of an entry may have. -/
def Usable (shared : Prop) (s : State V) (a : TsAddr) (k : Key) (h : Memory)
    (v : Saved V) (p : Nat) : Prop :=
  ∃ x, h.get p = some x ∧ (x.permanent = true ∨ ¬ s.Elsewhere a k p
    ∨ (p ∈ v.names ∧ s.Lent shared a k p))

/-- Names that the entry gets and does not have. -/
def State.Lends (shared : Prop) (s : State V) (a : TsAddr) (k : Key)
    (p : Nat) : Prop :=
  s.Lent shared a k p ∧ ∀ b, (s.tables a).find k = some b → p ∉ b.strings

theorem Good.usable (hs : Good shared s) {v : Saved V} {p : Nat}
    (hp : ∃ x, h.get p = some x ∧ (x.permanent = true
      ∨ s.memory.get p = none ∨ (p ∈ v.names ∧ s.Lends shared a k p))) :
    Usable shared s a k h v p :=
  hp.imp fun _ hx => ⟨hx.1, hx.2.imp_right
    (Or.imp hs.new_not_elsewhere fun hp => ⟨hp.1, hp.2.1⟩)⟩

/-- A value put into an entry, new or not. -/
theorem Good.put (hs : Good shared s) {v : Saved V} {c : Content V}
    {kp : Option Nat}
    (hkeep : Keeps (fun p => ¬ s.Elsewhere a k p) s.memory h)
    (hkey : KeyIs h k kp) (hkp : ∀ p ∈ kp.toList, Own s a k h p)
    (hv : ∀ p ∈ v.strings, Usable shared s a k h v p)
    (hapart : v.strings.Pairwise (Apart h))
    (hcross : ∀ p ∈ kp.toList, ∀ q ∈ v.strings, Apart h p q)
    (hc : restoreZval h v = some c) :
    Changed shared s (s.setTable a h ((s.tables a).update true k ⟨kp, v⟩)) a
      k (some c) := by
  have hfind := HashTable.find_update_self true (s.tables a) k ⟨kp, v⟩
  refine hs.change (fun hn => HashTable.find_update_ne true _ _ hn) hkeep
    ?_ ?_ ?_ ?_
  · intro b hb
    obtain rfl := Option.some.inj (hfind.symm.trans hb)
    exact hkey
  · intro b hb
    obtain rfl := Option.some.inj (hfind.symm.trans hb)
    refine List.pairwise_append.mpr ⟨?_, hapart, hcross⟩
    cases kp with
    | none => exact .nil
    | some p => exact List.pairwise_singleton _ _
  · intro b hb p hp
    obtain rfl := Option.some.inj (hfind.symm.trans hb)
    rcases List.mem_append.mp hp with hp | hp
    · exact (hkp p hp).imp fun x hx => ⟨hx.1, hx.2.imp_right .inl⟩
    · exact hv p hp
  · rw [hfind]
    exact hc

/-- The string of the key stays where its entry's value is replaced. -/
theorem Good.replace (hs : Good shared s) (hsole : s.Sole a k)
    {v : Saved V} {c : Content V} {b : Bucket V}
    (hb : (s.tables a).find k = some b)
    (hv : Pending (s.Lends shared a k) s.memory h v c) :
    ∃ h', storageDtor h b.value = some h'
      ∧ Changed shared s (s.setTable a h'
          ((s.tables a).update true k ⟨b.key, v⟩)) a k (some c) := by
  have hsub : ∀ p ∈ b.value.strings, p ∈ b.strings :=
    fun p hp => List.mem_append_right _ hp
  have hsubk : ∀ p ∈ b.key.toList, p ∈ b.strings :=
    fun p hp => List.mem_append_left _ hp
  obtain ⟨-, hvals, hcross⟩ := List.pairwise_append.mp (hs.apart hb)
  have hlive : ∀ p ∈ b.value.strings, ∃ x, h.get p = some x :=
    fun p hp => (hs.live hb (hsub p hp)).imp fun x hx => hv.keeps.live hx
  have hsame : ∀ p ∈ b.value.strings, h.get p = s.memory.get p :=
    fun p hp => by
      obtain ⟨x, hx⟩ := hs.live hb (hsub p hp)
      rw [hx, hv.keeps.live hx]
  obtain ⟨h', hfree, hk⟩ := dropAll_keeps hlive (apart_congr hsame hvals)
  -- neither the key nor the new value is freed
  have hkey : ∀ {p x}, p ∈ b.key.toList → s.memory.get p = some x →
      h'.get p = some x := fun {p x} hp hx => by
    refine hk.get (hv.keeps.live hx) ?_
    by_cases hps : p ∈ b.value.strings
    · exact (hcross p hp p hps x hx).imp_right fun hne => absurd rfl hne
    · exact .inr hps
  have hval : ∀ p ∈ v.strings, ∃ x, h.get p = some x ∧ h'.get p = some x
      ∧ (x.permanent = true ∨ s.memory.get p = none
        ∨ (p ∈ v.names ∧ s.Lends shared a k p)) := fun p hp => by
    obtain ⟨x, hx, hown⟩ := hv.strings p hp
    refine ⟨x, hx, hk.get hx (hown.imp_right fun hno hps => ?_), hown⟩
    rcases hno with hnone | ⟨-, -, hno⟩
    · obtain ⟨y, hy⟩ := hs.live hb (hsub p hps)
      rw [hnone] at hy
      cases hy
    · exact hno b hb (hsub p hps)
  have hnow : ∀ p ∈ v.strings, h'.get p = h.get p := fun p hp => by
    obtain ⟨x, hx, hx', -⟩ := hval p hp
    rw [hx, hx']
  refine ⟨h', (storageDtor_eq h b.value).trans hfree, hs.put
    (hs.keeps_elsewhere hsole hb hsub hv.keeps hk)
    ((hs.key hb).keeps ?_) ?_ ?_ ?_
    ?_ ((restoreZval_congr hnow).trans hv.content)⟩
  · intro q x hq hx
    exact hkey (by rw [hq]; exact List.mem_cons_self) hx
  · intro p hp
    obtain ⟨x, hx⟩ := hs.live hb (hsubk p hp)
    exact ⟨x, hkey hp hx, hs.not_elsewhere hsole hb (hsubk p hp) hx⟩
  · intro p hp
    obtain ⟨x, -, hx, hown⟩ := hval p hp
    exact hs.usable ⟨x, hx, hown⟩
  · exact apart_congr hnow hv.apart
  · intro p hp q hq x hx
    by_cases hpq : p = q
    · subst hpq
      obtain ⟨y, -, hy, hown⟩ := hval p hq
      obtain rfl := Option.some.inj (hy.symm.trans hx)
      refine .inl (hown.resolve_right fun hno => ?_)
      rcases hno with hnone | ⟨-, -, hno⟩
      · obtain ⟨z, hz⟩ := hs.live hb (hsubk p hp)
        rw [hnone] at hz
        cases hz
      · exact hno b hb (hsubk p hp)
    · exact .inr hpq

/-- An entry is added. -/
theorem Good.add (hs : Good shared s) {v : Saved V} {c : Content V}
    {ka : KeyArg} (hv : Pending (s.Lends shared a ka.key) s.memory h v c)
    (hka : ka.Valid s.memory) :
    Changed shared s (s.setTable a (newKey A h ka).2
      ((s.tables a).update true ka.key ⟨(newKey A h ka).1, v⟩)) a ka.key
      (some c) := by
  have hka' : ka.Valid h := by
    cases ka with
    | long n => trivial
    | str str => exact fun p hp => hv.keeps.live (hka p hp)
  obtain ⟨he, hkey, hkp⟩ := newKey_fresh (A := A) hka'
  have hval : ∀ p ∈ v.strings, ∃ x, h.get p = some x
      ∧ (newKey A h ka).2.get p = some x
      ∧ (x.permanent = true ∨ s.memory.get p = none
        ∨ (p ∈ v.names ∧ s.Lends shared a ka.key p)) := fun p hp => by
    obtain ⟨x, hx, hown⟩ := hv.strings p hp
    exact ⟨x, hx, he.live hx, hown⟩
  have hnow : ∀ p ∈ v.strings, (newKey A h ka).2.get p = h.get p :=
    fun p hp => by
      obtain ⟨x, hx, hx', -⟩ := hval p hp
      rw [hx, hx']
  refine hs.put ⟨fun hx _ => he.live (hv.keeps.live hx)⟩ hkey ?_ ?_ ?_ ?_
    ((restoreZval_congr hnow).trans hv.content)
  · intro p hp
    obtain ⟨x, hx, hown⟩ := hkp p hp
    refine ⟨x, hx, hown.imp_right fun hnone => hs.new_not_elsewhere ?_⟩
    cases hp : s.memory.get p with
    | none => rfl
    | some z =>
        rw [hv.keeps.live hp] at hnone
        cases hnone
  · intro p hp
    obtain ⟨x, -, hx, hown⟩ := hval p hp
    exact hs.usable ⟨x, hx, hown⟩
  · exact apart_congr hnow hv.apart
  · intro p hp q hq x hx
    by_cases hpq : p = q
    · subst hpq
      obtain ⟨y, hy, hown⟩ := hkp p hp
      obtain ⟨z, hz, -⟩ := hval p hq
      obtain rfl := Option.some.inj (hy.symm.trans hx)
      refine .inl (hown.resolve_right fun hnone => ?_)
      rw [hnone] at hz
      cases hz
    · exact .inr hpq

/-- `pmmpthread_store_update_shared_property` with a value that no table
has yet. -/
theorem Good.update (hs : Good shared s) {v : Saved V} {c : Content V}
    {ka : KeyArg} (hsole : s.Sole a ka.key)
    (hv : Pending (s.Lends shared a ka.key) s.memory h v c)
    (hka : ka.Valid s.memory) :
    ∃ q, updateSharedProperty A h (s.tables a) ka v = some q
      ∧ Changed shared s (s.setTable a q.1 q.2) a ka.key (some c) := by
  unfold updateSharedProperty
  cases hb : (s.tables a).find ka.key with
  | some b =>
      obtain ⟨h', hdtor, hchanged⟩ := hs.replace hsole hb hv
      exact ⟨_, congrArg (Option.map _) hdtor, hchanged⟩
  | none => exact ⟨_, rfl, hs.add hv hka⟩

theorem Good.write (hs : Good shared s) {ka : KeyArg}
    (hsole : s.Sole a ka.key) (hka : ka.Valid s.memory) {v : Written V}
    (hv : v.Valid s.memory) :
    ∃ s', s.write A a ka v = some s'
      ∧ Changed shared s s' a ka.key (some v.content) := by
  obtain ⟨q, hq, hchanged⟩ := hs.update (A := A) hsole
    (saveZval_pending (A := A) hv) hka
  exact ⟨_, congrArg (Option.map _) hq, hchanged⟩

theorem Contents.set_self {c : Contents V} {v : Option (Content V)}
    (hv : c a k = v) : c.set a k v = c := by
  funext a' k'
  unfold Contents.set
  split
  case isTrue heq => rw [heq.1, heq.2, hv]
  case isFalse => rfl

/-- A call that changes nothing. -/
theorem Changed.refl (hs : Good shared s) {c : Option (Content V)}
    (hc : s.contents a k = c) : Changed shared s s a k c where
  good := hs
  contents := (Contents.set_self hc).symm
  permanent hp := hp
  others _ := rfl

theorem contents_of_find_none (hb : (s.tables a).find k = none) :
    s.contents a k = none := by
  unfold State.contents
  rw [hb]
  rfl

theorem Good.contents_of_find (hs : Good shared s) {b : Bucket V}
    (hb : (s.tables a).find k = some b) :
    ∃ c, restoreZval s.memory b.value = some c
      ∧ s.contents a k = some c := by
  obtain ⟨c, hc⟩ := restoreZval_live fun p hp =>
    hs.live hb (List.mem_append_right _ hp)
  refine ⟨c, hc, ?_⟩
  unfold State.contents
  rw [hb]
  exact hc

theorem Good.contents_eq_none_iff (hs : Good shared s) :
    s.contents a k = none ↔ (s.tables a).find k = none := by
  refine ⟨fun hc => ?_, contents_of_find_none⟩
  cases hb : (s.tables a).find k with
  | none => rfl
  | some b =>
      obtain ⟨c, -, hsome⟩ := hs.contents_of_find hb
      rw [hc] at hsome
      cases hsome

theorem Good.delete (hs : Good shared s) (hsole : s.Sole a k) :
    ∃ s', s.delete a k = some s' ∧ Changed shared s s' a k none := by
  unfold State.delete
  cases hb : (s.tables a).find k with
  | none => exact ⟨s, rfl, .refl hs (contents_of_find_none hb)⟩
  | some b =>
      obtain ⟨h', hfree, hk⟩ := dropAll_keeps
        (fun p hp => hs.live hb hp) (hs.apart hb)
      have hfind := HashTable.find_del_self (s.tables a) k
      have hno : ∀ {b'}, ((s.tables a).del k).find k ≠ some b' := fun h => by
        rw [hfind] at h
        cases h
      exact ⟨_, congrArg (Option.map _) ((freeBucket_eq _ b).trans hfree),
        hs.change (fun hn => HashTable.find_del_ne _ hn)
          (hs.keeps_elsewhere hsole hb (fun _ hp => hp) (.refl _) hk)
          (fun _ h => absurd h hno) (fun _ h => absurd h hno)
          (fun _ h => absurd h hno) (by rw [hfind]; rfl)⟩

/-- What a read finds is what the entry is. -/
theorem Good.read (hs : Good shared s) (a : TsAddr) (k : Key) :
    s.read a k = some (s.contents a k) := by
  unfold State.read
  cases hb : (s.tables a).find k with
  | none => rw [contents_of_find_none hb]
  | some b =>
      obtain ⟨c, hc, hcontents⟩ := hs.contents_of_find hb
      obtain ⟨ka, hka, -, -⟩ := bucketKey_valid (hs.key hb)
      simp only [hka, hc, hcontents, Option.bind_some, Option.map_some]

theorem Good.take (hs : Good shared s) (hsole : s.Sole a k) :
    ∃ s', s.take a k = some s' ∧ Changed shared s s' a k none := by
  unfold State.take
  rw [hs.read, Option.bind_some]
  exact hs.delete hsole

theorem Good.persistEntry (hs : Good shared s) (a : TsAddr) (t : ThreadId)
    (k : Key) : ∃ s', s.persistEntry A a t k = some s'
      ∧ Changed shared s s' a k (s.contents a k) := by
  unfold State.persistEntry
  split
  case h_2 => exact ⟨s, rfl, .refl hs rfl⟩
  case h_1 key owner bytes hb =>
    by_cases ht : owner = t
    · rw [if_pos ht]
      have hown : Arg.Valid s.memory ⟨bytes, none⟩ := fun _ hp => by cases hp
      have hsole : s.Sole a k := fun b hb' p hp => by
        obtain rfl := Option.some.inj (hb.symm.trans hb')
        cases hp
      obtain ⟨h', hdtor, hchanged⟩ :=
        hs.replace hsole hb (saveString_fresh (A := A) hown).pending
      obtain rfl := Option.some.inj hdtor
      obtain ⟨c, hc, hcontents⟩ := hs.contents_of_find hb
      obtain rfl := Option.some.inj hc
      rw [hcontents]
      exact ⟨_, rfl, hchanged⟩
    · rw [if_neg ht]
      exact ⟨s, rfl, .refl hs rfl⟩

/-- What a merge makes of an entry of the destination. -/
def Contents.merged (c : Contents V) (dst src : TsAddr) (overwrite : Bool)
    (k : Key) : Option (Content V) :=
  if overwrite = true ∨ c dst k = none then (c src k).or (c dst k)
  else c dst k

/-- What is shared when an entry is copied is permanent, or may be shared
and stays. -/
def State.Shareable (shared : Prop) (s : State V) (dst src : TsAddr)
    (overwrite : Bool) (k : Key) : Prop :=
  ∀ b, (s.tables src).find k = some b →
    overwrite = true ∨ (s.tables dst).find k = none →
    s.Sole dst k ∧ ∀ p ∈ b.value.names, s.Forever p
      ∨ (shared ∧ ∀ b', (s.tables dst).find k = some b' →
        p ∉ b'.value.names)

/-- A name of one entry that another one of the same key does not have. -/
theorem Good.lends (hs : Good shared s) {src dst : TsAddr} {b : Bucket V}
    {p : Nat} (hb : (s.tables src).find k = some b)
    (hp : p ∈ b.value.names) (hn : ¬ s.Forever p) (hshared : shared)
    (hno : ∀ b', (s.tables dst).find k = some b' → p ∉ b'.value.names) :
    s.Lends shared dst k p := by
  have hstr := List.mem_append_right b.key.toList (Saved.strings_of_names hp)
  obtain ⟨⟨bytes, perm⟩, hx⟩ := hs.live hb hstr
  cases perm with
  | true => exact absurd ⟨bytes, hx⟩ hn
  | false =>
      have hother : ∀ {a' k' b'}, (s.tables a').find k' = some b' →
          p ∈ b'.strings → k' = k ∧ p ∈ b'.value.names :=
        fun hb' hp' => by
          rcases hs.unique hb hstr hb' hp' hx rfl with ⟨rfl, rfl⟩ | h
          · obtain rfl := Option.some.inj (hb.symm.trans hb')
            exact ⟨rfl, hp⟩
          · exact h.2
      exact ⟨⟨hshared, fun _ hb' hp' => hother hb' hp'⟩,
        fun b' hb' hp' => hno b' hb' (hother hb' hp').2⟩

theorem Good.mergeEntry (hs : Good shared s) {dst src : TsAddr}
    {overwrite : Bool} (hshare : s.Shareable shared dst src overwrite k) :
    ∃ s', s.mergeEntry A dst src overwrite k = some s'
      ∧ Changed shared s s' dst k
        (s.contents.merged dst src overwrite k) := by
  unfold State.mergeEntry Contents.merged
  cases hb : (s.tables src).find k with
  | none =>
      refine ⟨s, rfl, .refl hs ?_⟩
      rw [contents_of_find_none hb, Option.none_or, ite_self]
  | some b =>
      by_cases hover : overwrite = true ∨ (s.tables dst).find k = none
      · have hskip : (!overwrite && (s.tables dst).contains k) = false := by
          unfold HashTable.contains
          rcases hover with h | h <;> simp [h]
        obtain ⟨c, hc, hcontents⟩ := hs.contents_of_find hb
        obtain ⟨ka, hka, rfl, hvalid⟩ := bucketKey_valid (hs.key hb)
        obtain ⟨hsole, hnames⟩ := hshare b hb hover
        have hlent : ∀ p ∈ b.value.names,
            s.Forever p ∨ s.Lends shared dst ka.key p := fun p hp => by
          by_cases hforever : s.Forever p
          · exact .inl hforever
          · obtain ⟨hshared, hno⟩ := (hnames p hp).resolve_left hforever
            exact .inr (hs.lends hb hp hforever hshared hno)
        obtain ⟨r, hr, hpending⟩ := hardCopyStorage_pending (A := A) hc
          (List.pairwise_append.mp (hs.apart hb)).2.1 hlent
        obtain ⟨q, hq, hchanged⟩ := hs.update (A := A) hsole hpending hvalid
        rw [if_pos (hover.imp_right contents_of_find_none), hcontents]
        refine ⟨s.setTable dst q.1 q.2, ?_, hchanged⟩
        simp only [hskip, hka, hr, hq, Option.bind_some, Option.map_some]
        rfl
      · have hskip : (!overwrite && (s.tables dst).contains k) = true := by
          obtain ⟨hno, hsome⟩ := not_or.mp hover
          obtain ⟨b', hb'⟩ := Option.ne_none_iff_exists'.mp hsome
          unfold HashTable.contains
          simp [hno, hb']
        rw [if_neg fun h => hover (h.imp_right hs.contents_eq_none_iff.mp)]
        simp only [hskip, if_true]
        exact ⟨s, rfl, .refl hs rfl⟩

end PmmpThread.Model.SharedStrings
