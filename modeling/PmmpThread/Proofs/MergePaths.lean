/-
The two paths of `pmmpthread_store_merge`.

From another ThreadSafeArray the storages are copied, from an array with
the same entries the values are written one by one. What is in the
destination's table afterwards is not the same: a string is a persistent
copy on one path and a pointer into the thread on the other. But it
stands for the same (`content`), under the same keys in the same order,
because both paths make the same updates and nothing else they do has a
part in what a storage stands for (`Same`).

The names of an enum case are values here. What becomes of them as
strings that the two tables share is in Proofs/MergeStrings.
-/
import PmmpThread.Zend.Upsert
import PmmpThread.Proofs.MergeOverwrite

namespace PmmpThread.Model.World

open Zend

variable {E : Engine} {t : ThreadId} {w w' w'' : World}

-- ================================================================ content

/-- What a value is, apart from where it is kept. An object is its
identity, a closure its code, its `$this`, its bound objects and whether
it can be stored. -/
inductive Content where
  | null
  | bool (b : Bool)
  | long (n : Int)
  | double (bits : UInt64)
  | bytes (bytes : Bytes)
  | closure (body : Nat) (fake : Bool) (thisObj : Option (Option Nat))
      (uses : List (Use (Option Nat))) (threadSafe : Bool)
  | object (birth : Nat)
  | socket (s : SocketData)
  | enumCase (cls name : Bytes)
  deriving DecidableEq, Repr

/-- What a closure is. -/
def closureContent (w : World) (cl : Closure) (threadSafe : Bool) : Content :=
  .closure cl.body cl.fake (cl.thisObj.map w.birthOf)
    (cl.uses.map (Use.map w.birthOf)) threadSafe

/-- What a storage stands for; `none` if that is gone. A closure that is
stored has been accepted. -/
def content (w : World) : Storage → Option Content
  | .null => some .null
  | .bool b => some (.bool b)
  | .long n => some (.long n)
  | .double d => some (.double d)
  | .string _ b => some (.bytes b)
  | .stringPtr _ p _ => (w.strings.get p).map fun s => .bytes s.bytes
  | .closure p _ _ => w.closures[p]?.map fun cl => w.closureContent cl true
  | .object a _ => (w.birthOf a).map .object
  | .socket s => some (.socket s)
  | .enumCase cls name => some (.enumCase cls name)

/-- What an element of an array is. -/
def elementContent (w : World) : Php → Option Content
  | .leaf .null => some .null
  | .leaf (.bool b) => some (.bool b)
  | .leaf (.long n) => some (.long n)
  | .leaf (.double d) => some (.double d)
  | .leaf (.interned b) => some (.bytes b)
  | .leaf (.string p) => (w.strings.get p).map fun s => .bytes s.bytes
  | .leaf (.closure p) =>
      w.closures[p]?.map fun cl => w.closureContent cl cl.threadSafe
  | .leaf (.object a) => (w.birthOf a).map .object
  | .leaf (.socket s) => some (.socket s)
  | .leaf (.enumCase cls name) => some (.enumCase cls name)
  | .leaf .undef | .leaf .other | .leaf .indirect | .array _ => none

/-- The worlds have the same strings, closures and identities. -/
structure Same (w w' : World) : Prop where
  strings : w'.strings = w.strings
  closures : w'.closures = w.closures
  birthOf : ∀ a, w'.birthOf a = w.birthOf a

theorem Same.refl (w : World) : Same w w := ⟨rfl, rfl, fun _ => rfl⟩

theorem Same.trans (h : Same w w') (h' : Same w' w'') : Same w w'' :=
  ⟨h'.strings.trans h.strings, h'.closures.trans h.closures,
    fun a => (h'.birthOf a).trans (h.birthOf a)⟩

theorem same_commit (w : World) (c : Addr) (s : TsAddr)
    (r : Local × Store Storage) : Same w (w.commit c s r) :=
  ⟨rfl, rfl, fun a => birthOf_commit w c a s r⟩

theorem Same.closureContent (h : Same w w') (cl : Closure) (b : Bool) :
    w'.closureContent cl b = w.closureContent cl b := by
  have hb : w'.birthOf = w.birthOf := funext h.birthOf
  unfold World.closureContent
  rw [hb]

theorem Same.content (h : Same w w') (st : Storage) :
    w'.content st = w.content st := by
  cases st with
  | stringPtr owner p b => rw [World.content, World.content, h.strings]
  | closure p thisObj owner =>
      rw [World.content, World.content, h.closures]
      simp only [h.closureContent]
  | object a b => rw [World.content, World.content, h.birthOf]
  | _ => rfl

theorem Same.saveZval (h : Same w w') (v : Zval) :
    w'.saveZval t v = w.saveZval t v := by
  cases v with
  | string p => rw [World.saveZval, World.saveZval, h.strings]
  | closure p => rw [World.saveZval, World.saveZval, h.closures]
  | object a => rw [World.saveZval, World.saveZval, h.birthOf]
  | _ => rfl

-- ======================================================= what a path stores

/-- A copied storage stands for what the storage stands for. -/
theorem content_hardCopy {st st' : Storage}
    (h : w.hardCopyStorage st = some st') :
    w.content st' = w.content st := by
  cases st with
  | stringPtr owner p b =>
      obtain ⟨s, hs, rfl⟩ := Option.map_eq_some_iff.mp h
      rw [content, content, hs]
      rfl
  | _ => rw [← Option.some.inj h]

/-- What stands for something can be copied. -/
theorem hardCopy_of_content {st : Storage} {x : Content}
    (h : w.content st = some x) : ∃ st', w.hardCopyStorage st = some st' := by
  cases st with
  | stringPtr owner p b =>
      obtain ⟨s, hs, -⟩ := Option.map_eq_some_iff.mp h
      refine ⟨.string false s.bytes, ?_⟩
      rw [hardCopyStorage, hs]
      rfl
  | _ => exact ⟨_, rfl⟩

theorem hardCopyAll_content : ∀ {es : List (Key × Storage)},
    (∀ e ∈ es, (w.content e.2).isSome = true) →
    ∃ cs, w.hardCopyAll es = some cs
      ∧ mapVals w.content cs = mapVals w.content es := by
  intro es
  induction es with
  | nil => exact fun _ => ⟨[], rfl, rfl⟩
  | cons e es ih =>
      intro h
      obtain ⟨cs, hcs, hsame⟩ := ih fun e' h' => h e' (List.mem_cons_of_mem _ h')
      obtain ⟨x, hx⟩ := Option.isSome_iff_exists.mp (h e List.mem_cons_self)
      obtain ⟨st, hst⟩ := hardCopy_of_content hx
      refine ⟨(e.1, st) :: cs, ?_, ?_⟩
      · unfold hardCopyAll at hcs ⊢
        rw [List.mapM_cons, hst, hcs]
        rfl
      · show (e.1, w.content st) :: mapVals w.content cs
          = (e.1, w.content e.2) :: mapVals w.content es
        rw [content_hardCopy hst, hsame]

/-- An element that is what a storage stands for is saved as that. -/
theorem save_of_content {v : Php} {st : Storage} {x : Content}
    (h : w.elementContent v = some x) (hst : w.content st = some x) :
    ∃ z st', v = .leaf z ∧ w.saveZval t z = some st'
      ∧ w.content st' = some x := by
  cases v with
  | array es => cases h
  | leaf z =>
      refine ⟨z, ?_⟩
      cases z with
      | string p =>
          obtain ⟨s, hs, rfl⟩ := Option.map_eq_some_iff.mp h
          refine ⟨.stringPtr t p s.bytes, rfl, ?_, ?_⟩
          · rw [saveZval, hs]
            rfl
          · rw [content, hs]
            rfl
      | closure p =>
          obtain ⟨cl, hcl, rfl⟩ := Option.map_eq_some_iff.mp h
          -- only a closure that was accepted is behind a storage
          have hsafe : cl.threadSafe = true := by
            cases st with
            | closure q thisObj owner =>
                obtain ⟨cl', -, heq⟩ := Option.map_eq_some_iff.mp hst
                injection heq with _ _ _ _ hts
                exact hts.symm
            | stringPtr owner q b =>
                obtain ⟨_, -, heq⟩ := Option.map_eq_some_iff.mp hst
                cases heq
            | object a b =>
                obtain ⟨_, -, heq⟩ := Option.map_eq_some_iff.mp hst
                cases heq
            | _ => cases hst
          refine ⟨.closure p cl.thisObj t, rfl, ?_, ?_⟩
          · rw [saveZval, hcl, Option.bind_some, hsafe]
            rfl
          · rw [content, hcl, hsafe]
            rfl
      | object a =>
          obtain ⟨b, hb, rfl⟩ := Option.map_eq_some_iff.mp h
          refine ⟨.object a b, rfl, ?_, ?_⟩
          · rw [saveZval, hb]
            rfl
          · rw [content, hb]
            rfl
      | undef => cases h
      | other => cases h
      | indirect => cases h
      | _ => exact ⟨_, rfl, rfl, h⟩

-- ======================================================== the value path

/-- The value `v` of the element is a leaf and saved as the storage, under
the element's key. -/
def SavedAs (w : World) (t : ThreadId) (e : Key × Php) (r : Key × Storage) :
    Prop :=
  e.1 = r.1 ∧ coerceKey e.1 = e.1
    ∧ ∃ z, e.2 = .leaf z ∧ w.saveZval t z = some r.2

/-- The table of the destination after some of the updates. -/
structure Updated (w : World) (c : Addr) (x : Conn) (overwrite : Bool)
    (sts : List (Key × Storage)) (w' : World) (x' : Conn) : Prop where
  same : Same w w'
  conn : w'.conn c = some x'
  table : x'.s = x.s
  owner : x'.z.owner = x.z.owner
  entries : x'.o.props.hash.entries
    = mergeInto overwrite x.o.props.hash.entries sts
  modcount : x.o.props.modcount ≤ x'.o.props.modcount
  replaced : overwrite = true → ∀ k ∈ sts.map Prod.fst,
    memberIsCacheable x.o.props.hash k = true →
    x.o.props.modcount < x'.o.props.modcount

/-- One write of a leaf that is saved. -/
theorem writeMember_leaf {c : Addr} {x : Conn} (hx : w.conn c = some x)
    {k : Key} (hk : coerceKey k = k) {v : Zval} {st : Storage}
    (hst : w.saveZval x.z.owner v = some st) :
    ∃ w' x', w.writeMember c (some k) v false = ⟨true, false, w'⟩
      ∧ Same w w' ∧ w'.conn c = some x' ∧ x'.s = x.s
      ∧ x'.z.owner = x.z.owner
      ∧ x'.o.props.hash = x.o.props.hash.update true k st
      ∧ x'.o.props.modcount = x.o.props.modcount
        + (if memberIsCacheable x.o.props.hash k then 1 else 0) := by
  have hwrite := write_eq hx (some k) hst
  generalize hr : (w.writeStore x.z.owner x.z.loc x.o.props (some k) st).2
    = r at hwrite
  have hprops : r.2 = (bumpIf (memberIsCacheable x.o.props.hash k) x.z.loc
      (x.o.props.write (some k) st true)).2 := by
    rw [← hr]
    rfl
  have hsame : Same w ((w.commit c x.s r).updateLocalProperty c k v) :=
    (same_commit w c x.s r).trans
      ⟨rfl, rfl, fun a => birthOf_modify _ c a fun _ => rfl⟩
  refine ⟨_, _, ?_, hsame, conn_written hx r k v, rfl, rfl, ?_, ?_⟩
  · unfold writeMember
    rw [Option.map_some, hk, hwrite]
    rfl
  · show r.2.hash = _
    rw [hprops, bumpIf_hash, Store.write_hash]
    rfl
  · show r.2.modcount = _
    rw [hprops, bumpIf_modcount]
    unfold Store.write
    rw [Store.modcount_moveBounds, Store.modcount_guardRehash]

theorem Same.savedAs (h : Same w w') {es : List (Key × Php)}
    {sts : List (Key × Storage)}
    (hs : List.Forall₂ (w.SavedAs t) es sts) :
    List.Forall₂ (w'.SavedAs t) es sts := by
  refine hs.imp fun e r hr => ?_
  obtain ⟨hkey, hk, z, hz, hst⟩ := hr
  exact ⟨hkey, hk, z, hz, (h.saveZval z).trans hst⟩

/-- An array of leaves that are saved is merged by an update for each. -/
theorem mergeTable_updated (E : Engine) (t : ThreadId)
    (overwrite coerceArray : Bool) {c : Addr} (es : List (Key × Php)) :
    ∀ (sts : List (Key × Storage)) (w : World) (x : Conn),
      w.conn c = some x → List.Forall₂ (w.SavedAs x.z.owner) es sts →
      ∃ w' x', mergeTable E t overwrite coerceArray es w c
          = some ⟨true, false, w'⟩
        ∧ Updated w c x overwrite sts w' x' := by
  induction es with
  | nil =>
      intro sts w x hx hs
      cases hs
      exact ⟨w, x, rfl, Same.refl w, hx, rfl, rfl, rfl, Int.le_refl _,
        fun _ k hk => absurd hk List.not_mem_nil⟩
  | cons e es ih =>
      intro sts w x hx hs
      obtain ⟨k, v⟩ := e
      cases hs with
      | cons hhead htail =>
      rename_i r sts
      obtain ⟨hkey, hk, z, hv, hst⟩ := hhead
      obtain ⟨k', st⟩ := r
      change k = k' at hkey
      change v = .leaf z at hv
      subst hkey hv
      have hpres : w.present c k
          = decide (k ∈ x.o.props.hash.entries.map Prod.fst) := by
        unfold present
        rw [hx, Option.any_some, Bool.eq_iff_iff, HashTable.contains_iff,
          decide_eq_true_iff]
      by_cases hskip : overwrite = false
          ∧ k ∈ x.o.props.hash.entries.map Prod.fst
      · -- the key is there and stays
        obtain ⟨hover, hmem⟩ := hskip
        subst hover
        obtain ⟨w', x', hw', hup⟩ := ih sts w x hx htail
        refine ⟨w', x', ?_, hup.same, hup.conn, hup.table, hup.owner, ?_,
          hup.modcount, fun h => Bool.noConfusion h⟩
        · rw [mergeTable, hpres, decide_eq_true hmem]
          exact hw'
        · rw [hup.entries]
          unfold mergeInto
          rw [List.foldl_cons]
          congr 1
          exact (if_pos ⟨rfl, hmem⟩).symm
      · obtain ⟨w₁, x₁, hw₁, hsame, hx₁, hs₁, hown, hhash, hmod⟩ :=
          writeMember_leaf hx hk hst
        rw [← hown] at htail
        obtain ⟨w', x', hw', hup⟩ := ih sts w₁ x₁ hx₁ (hsame.savedAs htail)
        have hle := hup.modcount
        refine ⟨w', x', ?_, hsame.trans hup.same, hup.conn,
          hup.table.trans hs₁, hup.owner.trans hown, ?_, ?_, ?_⟩
        · rw [mergeTable, hpres, if_neg, storeWrite, hw₁]
          · exact hw'
          · rw [Bool.and_eq_true, Bool.not_eq_true', decide_eq_true_iff]
            exact hskip
        · rw [hup.entries, hhash, HashTable.entries_update]
          unfold mergeInto
          rw [List.foldl_cons]
          congr 1
          exact (if_neg hskip).symm
        · rw [hmod] at hle
          split at hle <;> omega
        · intro hover k₁ hk₁ hcache
          rw [hmod] at hle
          by_cases heq : k₁ = k
          · subst heq
            rw [if_pos hcache] at hle
            omega
          · rw [List.map_cons] at hk₁
            have hin := (List.mem_cons.mp hk₁).resolve_left heq
            have hstill : memberIsCacheable x₁.o.props.hash k₁ = true := by
              unfold memberIsCacheable at hcache ⊢
              rw [hhash, HashTable.find_update_ne _ _ _ heq]
              exact hcache
            have hlt := hup.replaced hover k₁ hin hstill
            rw [hmod] at hlt
            split at hlt <;> omega

-- ====================================================== the storage path

theorem entries_mergeLoop (overwrite : Bool) (es : List (Key × Storage)) :
    ∀ (h : HashTable Storage) (l : Local) (b : Bool),
      (mergeLoop overwrite es (h, l, b)).1.entries
        = mergeInto overwrite h.entries es := by
  induction es with
  | nil => exact fun _ _ _ => rfl
  | cons e es ih =>
      intro h l b
      unfold mergeLoop mergeInto
      rw [List.foldl_cons]
      by_cases hskip : overwrite = false ∧ e.1 ∈ h.entries.map Prod.fst
      · obtain ⟨hover, hmem⟩ := hskip
        subst hover
        rw [HashTable.contains_iff.mpr hmem]
        show (mergeLoop false es (h, l, b)).1.entries = _
        rw [ih, mergeStep, if_pos ⟨rfl, hmem⟩]
        rfl
      · rw [if_neg, ih, HashTable.entries_update, mergeStep, if_neg hskip]
        · rfl
        · rw [Bool.and_eq_true, Bool.not_eq_true', HashTable.contains_iff]
          exact hskip

/-- Another ThreadSafeArray is merged by the same updates. -/
theorem storeMerge_updated {c a : Addr} {x y : Conn}
    {es : List (Key × Storage)} (hx : w.conn c = some x)
    (hy : w.conn a = some y)
    (hes : w.hardCopyAll y.o.props.hash.entries = some es)
    (overwrite : Bool) :
    ∃ w' x', w.storeMerge c a overwrite = some w'
      ∧ Updated w c x overwrite es w' x' := by
  obtain ⟨hz, hts, ho⟩ := conn_eq_some.mp hx
  have hnd := hardCopyAll_nodup hes
  have hmod : (afterMerge x overwrite es).2.modcount = x.o.props.modcount
      + (if (mergeLoop overwrite es
          (x.o.props.hash, x.z.loc, false)).2.2 then 1 else 0) := by
    unfold afterMerge
    exact bumpIf_modcount _ _ _
  refine ⟨w.commit c x.s (afterMerge x overwrite es),
    ⟨{ x.z with loc := (afterMerge x overwrite es).1 }, x.s,
      { x.o with props := (afterMerge x overwrite es).2 }⟩, ?_,
    same_commit w c x.s _, conn_eq_some.mpr ⟨?_, hts, ?_⟩, rfl, rfl, ?_, ?_,
    ?_⟩
  · unfold storeMerge
    rw [hx, hy]
    dsimp only
    rw [hes]
    rfl
  · rw [mem_commit, if_pos rfl, hz]
    rfl
  · rw [shared_commit, if_pos rfl, ho]
    rfl
  · show (afterMerge x overwrite es).2.hash.entries = _
    unfold afterMerge
    rw [bumpIf_hash]
    exact entries_mergeLoop overwrite es _ _ _
  · show _ ≤ (afterMerge x overwrite es).2.modcount
    rw [hmod]
    split <;> omega
  · intro hover k hk hcache
    show _ < (afterMerge x overwrite es).2.modcount
    obtain ⟨e, he, rfl⟩ := List.mem_map.mp hk
    obtain ⟨-, -, hb⟩ := mergeLoop_spec overwrite es x.o.props.hash x.z.loc
      false hnd
    rw [hmod, hb.mpr (Or.inr ⟨e.1, e.2, ⟨he, Or.inl hover⟩, hcache⟩)]
    exact Int.lt_succ _

-- ============================================================== agreement

theorem Same.mapVals_content (h : Same w w') (es : List (Key × Storage)) :
    mapVals w'.content es = mapVals w.content es := by
  rw [show w'.content = w.content from funext h.content]

/-- What the destination's entries stand for afterwards. -/
theorem Updated.contents {c : Addr} {x x' : Conn} {overwrite : Bool}
    {sts : List (Key × Storage)} (h : Updated w c x overwrite sts w' x') :
    mapVals w'.content x'.o.props.hash.entries
      = mergeInto overwrite (mapVals w.content x.o.props.hash.entries)
        (mapVals w.content sts) := by
  rw [h.same.mapVals_content, h.entries, mapVals_mergeInto]

/-- An array with the entries of a ThreadSafeArray is saved as storages
that stand for the same. -/
theorem savedAs_of_content {es : List (Key × Php)} :
    ∀ {sts : List (Key × Storage)},
      (∀ e ∈ sts, coerceKey e.1 = e.1 ∧ (w.content e.2).isSome = true) →
      mapVals w.elementContent es = mapVals w.content sts →
      ∃ saved, List.Forall₂ (w.SavedAs t) es saved
        ∧ mapVals w.content saved = mapVals w.content sts := by
  induction es with
  | nil =>
      intro sts _ heq
      exact ⟨[], .nil, heq⟩
  | cons e es ih =>
      intro sts hsts heq
      cases sts with
      | nil => cases heq
      | cons r sts =>
          obtain ⟨hhead, htail⟩ := List.cons.inj heq
          obtain ⟨hkey, hval⟩ := Prod.mk.inj hhead
          obtain ⟨hk, hsome⟩ := hsts r List.mem_cons_self
          obtain ⟨d, hd⟩ := Option.isSome_iff_exists.mp hsome
          obtain ⟨z, st, hv, hst, hcont⟩ :=
            save_of_content (t := t) (hval.trans hd) hd
          obtain ⟨saved, hsaved, hsame⟩ :=
            ih (fun e' he' => hsts e' (List.mem_cons_of_mem _ he')) htail
          refine ⟨(e.1, st) :: saved,
            .cons ⟨rfl, hkey ▸ hk, z, hv, hst⟩ hsaved, ?_⟩
          show (e.1, w.content st) :: mapVals w.content saved
            = (r.1, w.content r.2) :: mapVals w.content sts
          rw [hsame, hcont, hd, ← hkey]

/-- A merge of the entries of `y` into `x`, by value: the keys in their
order with what they stand for, and a modification count that has advanced
if an entry was replaced that a connection may have cached. -/
structure MergedTable (w : World) (c : Addr) (x y : Conn) (overwrite : Bool)
    (w' : World) (x' : Conn) : Prop where
  conn : w'.conn c = some x'
  table : x'.s = x.s
  contents : mapVals w'.content x'.o.props.hash.entries
    = mergeInto overwrite (mapVals w.content x.o.props.hash.entries)
      (mapVals w.content y.o.props.hash.entries)
  replaced : overwrite = true → ∀ k ∈ y.o.props.hash.entries.map Prod.fst,
    memberIsCacheable x.o.props.hash k = true →
    x.o.props.modcount < x'.o.props.modcount

theorem Updated.mergedTable {c : Addr} {x x' y : Conn} {overwrite : Bool}
    {sts : List (Key × Storage)} (h : Updated w c x overwrite sts w' x')
    (hsts : mapVals w.content sts
      = mapVals w.content y.o.props.hash.entries) :
    w.MergedTable c x y overwrite w' x' where
  conn := h.conn
  table := h.table
  contents := by rw [h.contents, hsts]
  replaced hover k hk hcache := by
    refine h.replaced hover k ?_ hcache
    rw [← keys_mapVals w.content sts, hsts, keys_mapVals]
    exact hk

/-- Names of enum cases by value, merging a ThreadSafeArray and merging an
array with the same entries succeed both and leave the same. -/
theorem merge_paths (E : Engine) (w : World) (t : ThreadId)
    {c a : Addr} {x y : Conn} (hx : w.conn c = some x)
    (hy : w.conn a = some y) (overwrite coerceArray : Bool)
    (hlive : ∀ e ∈ y.o.props.hash.entries,
      coerceKey e.1 = e.1 ∧ (w.content e.2).isSome = true)
    (es : List (Key × Php))
    (hes : mapVals w.elementContent es
      = mapVals w.content y.o.props.hash.entries) :
    ∃ w₁ w₂ x₁ x₂,
      w.merge E t c overwrite coerceArray (.threadSafeArray a)
          = some ⟨true, false, w₁⟩
      ∧ w.merge E t c overwrite coerceArray (.array es)
          = some ⟨true, false, w₂⟩
      ∧ w.MergedTable c x y overwrite w₁ x₁
      ∧ w.MergedTable c x y overwrite w₂ x₂ := by
  obtain ⟨copies, hcopies, hcsame⟩ :=
    hardCopyAll_content fun e he => (hlive e he).2
  obtain ⟨saved, hsaved, hssame⟩ :=
    savedAs_of_content (t := x.z.owner) hlive hes
  obtain ⟨w₁, x₁, hw₁, hup₁⟩ := storeMerge_updated hx hy hcopies overwrite
  obtain ⟨w₂, x₂, hw₂, hup₂⟩ :=
    mergeTable_updated E t overwrite coerceArray es saved w x hx hsaved
  refine ⟨w₁, w₂, x₁, x₂, ?_, hw₂, hup₁.mergedTable hcsame,
    hup₂.mergedTable hssame⟩
  show (w.storeMerge c a overwrite).map _ = _
  rw [hw₁]
  rfl

end PmmpThread.Model.World
