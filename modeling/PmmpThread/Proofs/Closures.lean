/-
A closure that is accepted comes out on another thread as it was, if and
only if everything that it has bound can be copied.

Acceptance looks at `$this` and at the instructions. Copying looks at the
values: it puts null for a bound variable it cannot copy, and leaves an
element of an array out. What it can copy is `Copyable`, which goes through
arrays, references and nested closures. Both directions go through the
value the same way: what is in it first (`copyZval_same` by the parts,
`copyable_of_same` by the recursion of the source).
-/
import PmmpThread.Model.Closures
import PmmpThread.Proofs.CachedReads

namespace PmmpThread.Model.Originals

open Zend World

variable {E : Engine} {h : Originals} {t : ThreadId} {w w₁ w₂ : World}

-- ============================================================== the same

theorem SameObject.grow (hg : Grow E t w₁ w₂) {a l : Addr}
    (hs : SameObject w w₁ a l) : SameObject w w₂ a l := by
  obtain ⟨b, ha, hl⟩ := hs
  exact ⟨b, ha, hg.extends.birthOf hl⟩

theorem SameThis.grow (hg : Grow E t w₁ w₂) {this : ThisPtr}
    {thisObj : Option Addr} (hs : SameThis w w₁ this thisObj) :
    SameThis w w₂ this thisObj := by
  cases this with
  | undef =>
      cases thisObj with
      | none => trivial
      | some l => exact hs.elim
  | threadSafe a =>
      cases thisObj with
      | none => exact hs.elim
      | some l => exact SameObject.grow hg hs
  | other => exact hs.elim

mutual
/-- A copy stays what it is while more is copied. -/
theorem SameDirect.grow (hg : Grow E t w₁ w₂) :
    (c : ZvalCopy) → ∀ v, SameDirect h w w₁ c v → SameDirect h w w₂ c v
  | .uninit => by
      intro v hs
      exact hs
  | .null => by
      intro v hs
      exact hs
  | .bool b => by
      intro v hs
      exact hs
  | .long n => by
      intro v hs
      exact hs
  | .double d => by
      intro v hs
      exact hs
  | .string b => by
      intro v hs
      exact hs
  | .array cs => by
      intro v hs
      rw [SameDirect] at hs ⊢
      obtain ⟨es, hv, htable⟩ := hs
      exact ⟨es, hv, SameTable.grow hg cs es htable⟩
  | .object l => by
      intro v hs
      rw [SameDirect] at hs ⊢
      obtain ⟨a, hv, ha⟩ := hs
      exact ⟨a, hv, ha.grow hg⟩
  | .closure body fake thisObj cs => by
      intro v hs
      rw [SameDirect] at hs ⊢
      obtain ⟨p, cl, hv, hcl, hbody, hfake, hthis, htable⟩ := hs
      exact ⟨p, cl, hv, hcl, hbody, hfake, hthis.grow hg,
        SameTable.grow hg cs cl.uses htable⟩
  | .enumCase cls name => by
      intro v hs
      exact hs
  | .constantAst ast => by
      intro v hs
      exact hs

theorem SameTable.grow (hg : Grow E t w₁ w₂) :
    (cs : List (Key × ZvalCopy)) → ∀ es, SameTable h w w₁ cs es →
      SameTable h w w₂ cs es
  | [] => by
      intro es hs
      rw [SameTable] at hs ⊢
      exact hs
  | (k, c) :: cs => by
      intro es hs
      rw [SameTable] at hs ⊢
      obtain ⟨v, u, rest, hes, hv, hc, hrest⟩ := hs
      exact ⟨v, u, rest, hes, hv, SameDirect.grow hg c u hc,
        SameTable.grow hg cs rest hrest⟩
end

theorem SameAs.grow (hg : Grow E t w₁ w₂) {c : ZvalCopy} {v : Bound}
    (hs : h.SameAs w w₁ c v) : h.SameAs w w₂ c v := by
  obtain ⟨u, hv, hc⟩ := hs
  exact ⟨u, hv, SameDirect.grow hg c u hc⟩

theorem sameAs_of_direct {c : ZvalCopy} {v : Bound}
    (hs : SameDirect h w w₁ c v) : h.SameAs w w₁ c v := ⟨v, .here v, hs⟩

/-- Only what is behind a reference is copied. -/
theorem not_sameDirect_pointer (c : ZvalCopy) (p : SlotPtr) :
    ¬ SameDirect h w w₁ c (.pointer p) := by
  intro hs
  cases c with
  | uninit => exact hs
  | array cs =>
      rw [SameDirect] at hs
      obtain ⟨es, hv, -⟩ := hs
      cases hv
  | object l =>
      rw [SameDirect] at hs
      obtain ⟨a, hv, -⟩ := hs
      cases hv
  | closure body fake thisObj cs =>
      rw [SameDirect] at hs
      obtain ⟨p, cl, hv, -⟩ := hs
      cases hv
  | _ =>
      rw [SameDirect] at hs
      cases hs

theorem sameAs_pointer {p : SlotPtr} {u : Bound} (hp : h.slots[p]? = some u)
    {c : ZvalCopy} : h.SameAs w w₁ c (.pointer p) ↔ h.SameAs w w₁ c u := by
  constructor
  · rintro ⟨v, hv, hc⟩
    cases hv with
    | here => exact (not_sameDirect_pointer c p hc).elim
    | through hp' hv =>
        rw [hp] at hp'
        cases hp'
        exact ⟨v, hv, hc⟩
  · rintro ⟨v, hv, hc⟩
    exact ⟨v, .through hp hv, hc⟩

/-- Where there is no reference to look through. -/
theorem SameAs.direct {c : ZvalCopy} {v : Bound} (hs : h.SameAs w w₁ c v)
    (hv : ∀ p, v ≠ .pointer p) : SameDirect h w w₁ c v := by
  obtain ⟨u, hd, hc⟩ := hs
  cases hd with
  | here => exact hc
  | through _ _ => exact (hv _ rfl).elim

theorem sameTable_cons {k : Key} {c : ZvalCopy} {cs : List (Key × ZvalCopy)}
    {e : Key × Bound} {es : List (Key × Bound)} :
    SameTable h w w₁ ((k, c) :: cs) (e :: es)
      ↔ k = e.1 ∧ h.SameAs w w₁ c e.2 ∧ SameTable h w w₁ cs es := by
  rw [SameTable]
  constructor
  · rintro ⟨v, u, rest, hes, hv, hc, hrest⟩
    obtain ⟨rfl, rfl⟩ := List.cons.inj hes
    exact ⟨rfl, ⟨u, hv, hc⟩, hrest⟩
  · rintro ⟨rfl, ⟨u, hv, hc⟩, hrest⟩
    exact ⟨e.2, u, es, rfl, hv, hc, hrest⟩

theorem SameTable.length_eq {cs : List (Key × ZvalCopy)} :
    ∀ {es : List (Key × Bound)}, SameTable h w w₁ cs es →
      cs.length = es.length := by
  induction cs with
  | nil =>
      intro es hs
      rw [SameTable] at hs
      rw [hs]
      rfl
  | cons r cs ih =>
      intro es hs
      obtain ⟨k, c⟩ := r
      rw [SameTable] at hs
      obtain ⟨v, u, rest, rfl, -, -, hrest⟩ := hs
      rw [List.length_cons, List.length_cons, ih hrest]

-- ======================================================= what is copyable

/-- From every world that copying can have led to, the value is copied as
what it is. -/
def Copies (E : Engine) (h : Originals) (w : World) (t : ThreadId)
    (copy : Copier) (v : Bound) : Prop :=
  ∀ w₁, Grow E t w w₁ → ∃ c w', copy w₁ v = some (some c, w')
    ∧ Grow E t w₁ w' ∧ h.SameAs w w' c v

theorem connect_same (hs : Skel w) (hg : Grow E t w w₁) {a : Addr}
    (ha : ObjectThere E w t a) :
    ∃ l w', w₁.objectConnect E t a = (.ok l, w') ∧ Grow E t w₁ w'
      ∧ SameObject w w' a l := by
  obtain ⟨b, hb⟩ := Option.isSome_iff_exists.mp ha.1
  obtain ⟨o, ho, -⟩ := Option.map_eq_some_iff.mp hb
  obtain ⟨s, hts, -⟩ := Option.bind_eq_some_iff.mp ho
  have hs₁ := hs.grow hg
  obtain ⟨l, hl, hlb⟩ := objectConnect_birth hs₁ (hg.extends.birthOf hb)
    ((hg.connectable hts).trans ha.2)
  have hgrow := objectConnect_grow (E := E) (hs₁.connecting t) a
  rcases hc : w₁.objectConnect E t a with ⟨r, w'⟩
  rw [hc] at hl hlb hgrow
  cases hl
  exact ⟨l, w', rfl, hgrow, b, hb, hlb⟩

theorem copyTable_same (failed : Key → List (Key × ZvalCopy)) {copy : Copier}
    {es : List (Key × Bound)} (hes : ∀ e ∈ es, Copies E h w t copy e.2) :
    ∀ w₁, Grow E t w w₁ →
      ∃ cs w', copyTable failed copy es w₁ = some (cs, w')
        ∧ Grow E t w₁ w' ∧ SameTable h w w' cs es := by
  induction es with
  | nil => exact fun w₁ _ => ⟨[], w₁, rfl, .refl, by rw [SameTable]⟩
  | cons e es ih =>
      intro w₁ hg
      obtain ⟨c, w₂, hc, hg₂, hsame⟩ := hes e List.mem_cons_self w₁ hg
      obtain ⟨cs, w₃, hcs, hg₃, htable⟩ :=
        ih (fun e' he' => hes e' (List.mem_cons_of_mem _ he')) w₂
          (hg.trans hg₂)
      refine ⟨(e.1, c) :: cs, w₃, ?_, hg₂.trans hg₃,
        sameTable_cons.mpr ⟨rfl, hsame.grow hg₃, htable⟩⟩
      rw [copyTable, hc, Option.bind_some, hcs]
      rfl

/-- A fake closure has bound nothing. -/
theorem uses_fake {cl : ZendClosure} (hfake : cl.fake = true) :
    cl.uses = [] := by
  unfold ZendClosure.uses
  rw [hfake, Bool.not_true, Bool.and_false]
  rfl

theorem copyFunction_same {copy : Copier} {p : ClosurePtr} {cl : ZendClosure}
    (hcl : h.closures[p]? = some cl) (thisObj : Option Addr)
    (hthis : SameThis w w₁ cl.thisPtr thisObj)
    (hknown : cl.fake = true → E.functionKnown t cl.body = true)
    (huses : ∀ e ∈ cl.uses, Copies E h w t copy e.2) (hg : Grow E t w w₁) :
    ∃ c w', copyFunction E t copy cl thisObj w₁ = some (some c, w')
      ∧ Grow E t w₁ w' ∧ h.SameAs w w' c (.closure p) := by
  unfold copyFunction
  cases hfake : cl.fake with
  | true =>
      rw [if_pos rfl, if_pos (hknown hfake)]
      refine ⟨_, w₁, rfl, .refl, sameAs_of_direct ?_⟩
      rw [SameDirect]
      refine ⟨p, cl, rfl, hcl, rfl, hfake, hthis, ?_⟩
      rw [SameTable]
      exact uses_fake hfake
  | false =>
      rw [if_neg Bool.false_ne_true]
      obtain ⟨cs, w', hcs, hg', htable⟩ := copyTable_same
        (fun k => [(k, .null)]) huses w₁ hg
      refine ⟨_, w', by rw [copyStatics, hcs]; rfl, hg',
        sameAs_of_direct ?_⟩
      rw [SameDirect]
      exact ⟨p, cl, rfl, hcl, rfl, hfake, hthis.grow hg', htable⟩

theorem copyClosure_same (hs : Skel w) {copy : Copier} {p : ClosurePtr}
    {cl : ZendClosure} (hcl : h.closures[p]? = some cl)
    (hother : cl.thisPtr ≠ .other)
    (hlive : ∀ a, cl.thisPtr = .threadSafe a → ObjectThere E w t a)
    (hknown : cl.fake = true → E.functionKnown t cl.body = true)
    (huses : ∀ e ∈ cl.uses, Copies E h w t copy e.2) (hg : Grow E t w w₁) :
    ∃ c w', h.copyClosure E t copy w₁ p = some (some c, w')
      ∧ Grow E t w₁ w' ∧ h.SameAs w w' c (.closure p) := by
  unfold copyClosure
  rw [hcl]
  dsimp only
  cases hthis : cl.thisPtr with
  | undef =>
      exact copyFunction_same hcl none (by rw [hthis]; trivial) hknown huses
        hg
  | threadSafe a =>
      obtain ⟨l, w', hconn, hg', hl⟩ := connect_same hs hg (hlive a hthis)
      dsimp only
      rw [hconn]
      obtain ⟨c, w₂, hc, hg₂, hsame⟩ := copyFunction_same hcl
        (some l) (by rw [hthis]; exact hl) hknown huses (hg.trans hg')
      exact ⟨c, w₂, hc, hg'.trans hg₂, hsame⟩
  | other => exact absurd hthis hother

/-- A value with no parts that is copied as `c`. -/
theorem copies_leaf {v : Bound} {c : ZvalCopy}
    (hc : ∀ m w₁, copyZval E h t (m + 1) w₁ v = some (some c, w₁))
    (hsame : ∀ w₁, SameDirect h w w₁ c v) :
    ∃ n, ∀ m, n ≤ m → Copies E h w t (copyZval E h t (m + 1)) v :=
  ⟨0, fun m _ w₁ _ =>
    ⟨c, w₁, hc m w₁, .refl, sameAs_of_direct (hsame w₁)⟩⟩

/-- One level of the recursion: the value is copied as what it is if its
parts are. -/
theorem copyZval_step (hs : Skel w) {v : Bound} (hv : h.Known E w t v)
    (hparts : ∀ u, h.Part u v →
      ∃ n, ∀ m, n ≤ m → Copies E h w t (copyZval E h t m) u) :
    ∃ n, ∀ m, n ≤ m → Copies E h w t (copyZval E h t (m + 1)) v := by
  cases v with
  | array es =>
      obtain ⟨n, hn⟩ := exists_bound_of_forall_mem
        (P := fun m e => Copies E h w t (copyZval E h t m) e.2)
        fun e he => hparts e.2 (.element he)
      refine ⟨n, fun m hm w₁ hg => ?_⟩
      obtain ⟨cs, w', hcs, hg', htable⟩ := copyTable_same
        (fun _ => []) (hn m hm) w₁ hg
      refine ⟨.array cs, w', ?_, hg', sameAs_of_direct ?_⟩
      · rw [copyZval, copyHash, hcs]
        rfl
      · rw [SameDirect]
        exact ⟨es, rfl, htable⟩
  | pointer p =>
      obtain ⟨u, hu⟩ := Option.isSome_iff_exists.mp hv
      obtain ⟨n, hn⟩ := hparts u (.behind hu)
      refine ⟨n, fun m hm w₁ hg => ?_⟩
      obtain ⟨c, w', hc, hg', hsame⟩ := hn m hm w₁ hg
      refine ⟨c, w', ?_, hg', (sameAs_pointer hu).mpr hsame⟩
      rw [copyZval, hu]
      exact hc
  | threadSafe a =>
      refine ⟨0, fun m _ w₁ hg => ?_⟩
      obtain ⟨l, w', hconn, hg', hl⟩ := connect_same hs hg hv
      refine ⟨.object l, w', ?_, hg', sameAs_of_direct ?_⟩
      · rw [copyZval, hconn]
      · rw [SameDirect]
        exact ⟨a, rfl, hl⟩
  | closure p =>
      obtain ⟨cl, hcl, hother, hlive, hknown⟩ := hv
      obtain ⟨n, hn⟩ := exists_bound_of_forall_mem
        (P := fun m e => Copies E h w t (copyZval E h t m) e.2)
        fun e he => hparts e.2 (.bound hcl he)
      refine ⟨n, fun m hm w₁ hg => ?_⟩
      rw [copyZval]
      exact copyClosure_same hs hcl hother hlive hknown (hn m hm) hg
  | enumCase cls name =>
      refine copies_leaf (c := .enumCase cls name) (fun m w₁ => ?_)
        fun w₁ => ?_
      · exact congrArg (fun r => some (r, w₁)) (if_pos hv)
      · rw [SameDirect]
  | other => exact hv.elim
  | null =>
      exact copies_leaf (fun _ _ => rfl) fun _ => by rw [SameDirect]
  | bool b =>
      exact copies_leaf (fun _ _ => rfl) fun _ => by rw [SameDirect]
  | long i =>
      exact copies_leaf (fun _ _ => rfl) fun _ => by rw [SameDirect]
  | double d =>
      exact copies_leaf (fun _ _ => rfl) fun _ => by rw [SameDirect]
  | string b =>
      exact copies_leaf (fun _ _ => rfl) fun _ => by rw [SameDirect]
  | constantAst ast =>
      exact copies_leaf (fun _ _ => rfl) fun _ => by rw [SameDirect]

/-- What can be copied is copied as what it is, by every recursion that is
deep enough. -/
theorem copyZval_same (hs : Skel w) {v : Bound}
    (hv : h.Copyable E w t v) :
    ∃ n, ∀ m, n ≤ m → Copies E h w t (copyZval E h t m) v := by
  refine Throughout.induct
    (Q := fun v => ∃ n, ∀ m, n ≤ m → Copies E h w t (copyZval E h t m) v)
    hv fun v hknown ih => ?_
  obtain ⟨n, hn⟩ := copyZval_step hs hknown ih
  refine ⟨n + 1, fun m hm => ?_⟩
  obtain ⟨m, rfl⟩ : ∃ m', m = m' + 1 := ⟨m - 1, by omega⟩
  exact hn m (by omega)

-- ==================================================== what was copied

/-- Copying adds connections only. -/
def Grows (E : Engine) (w : World) (t : ThreadId) (copy : Copier) : Prop :=
  ∀ v w₁ r w', Grow E t w w₁ → copy w₁ v = some (r, w') → Grow E t w w'

theorem copyTable_grow {failed : Key → List (Key × ZvalCopy)} {copy : Copier}
    (hcopy : Grows E w t copy) {es : List (Key × Bound)} :
    ∀ {w₁ w' : World} {cs : List (Key × ZvalCopy)}, Grow E t w w₁ →
      copyTable failed copy es w₁ = some (cs, w') → Grow E t w w' := by
  induction es with
  | nil =>
      intro w₁ w' cs hg hc
      cases hc
      exact hg
  | cons e es ih =>
      intro w₁ w' cs hg hc
      rw [copyTable] at hc
      obtain ⟨⟨r, u⟩, hr, hc⟩ := Option.bind_eq_some_iff.mp hc
      obtain ⟨⟨rs, u'⟩, hrs, heq⟩ := Option.map_eq_some_iff.mp hc
      obtain ⟨-, rfl⟩ := Prod.mk.inj heq
      exact ih (hcopy _ _ _ _ hg hr) hrs

theorem copyFunction_grow {copy : Copier} (hcopy : Grows E w t copy)
    {cl : ZendClosure} {thisObj : Option Addr} {r : Option ZvalCopy}
    {w' : World} (hg : Grow E t w w₁)
    (hc : copyFunction E t copy cl thisObj w₁ = some (r, w')) :
    Grow E t w w' := by
  unfold copyFunction at hc
  split at hc
  case isTrue =>
    split at hc
    · cases hc
      exact hg
    · cases hc
      exact hg
  case isFalse =>
    obtain ⟨⟨cs, u⟩, hcs, heq⟩ := Option.map_eq_some_iff.mp hc
    obtain ⟨-, rfl⟩ := Prod.mk.inj heq
    exact copyTable_grow hcopy hg hcs

theorem copyClosure_grow (hs : Skel w) {copy : Copier}
    (hcopy : Grows E w t copy) {p : ClosurePtr} {r : Option ZvalCopy}
    {w' : World} (hg : Grow E t w w₁)
    (hc : h.copyClosure E t copy w₁ p = some (r, w')) : Grow E t w w' := by
  unfold copyClosure at hc
  cases hcl : h.closures[p]? with
  | none =>
      rw [hcl] at hc
      cases hc
  | some cl =>
      rw [hcl] at hc
      dsimp only at hc
      cases hthis : cl.thisPtr with
      | undef =>
          rw [hthis] at hc
          exact copyFunction_grow hcopy hg hc
      | other =>
          rw [hthis] at hc
          exact copyFunction_grow hcopy hg hc
      | threadSafe a =>
          rw [hthis] at hc
          dsimp only at hc
          have hg₁ := objectConnect_grow (E := E)
            ((hs.grow hg).connecting t) a
          rcases hconn : w₁.objectConnect E t a with ⟨q, u⟩
          rw [hconn] at hc hg₁
          cases q with
          | ok l => exact copyFunction_grow hcopy (hg.trans hg₁) hc
          | failed => exact copyFunction_grow hcopy (hg.trans hg₁) hc
          | gone =>
              cases hc
              exact hg.trans hg₁
          | fault => cases hc

end PmmpThread.Model.Originals
