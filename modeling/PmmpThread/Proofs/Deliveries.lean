/-
What the taker gets is what was put in: the values that shift, pop and
chunk hand to PHP code denote the entries that the array gives up, in
its order (`taken_delivered`). An entry whose object, class, enum case or
function is not there for the taker is null, with an exception.

The storages of a chunk are restored one after the other, each in the
world that the ones before it leave; the table is only changed after
the last, so its entries back every one of them (`restoreAll_delivers`).
-/
import PmmpThread.Proofs.Arrays
import PmmpThread.Proofs.Coherence
import PmmpThread.Proofs.Faults

namespace PmmpThread.Model.World

open Zend

variable {E : Engine} {t : ThreadId} {w w' u : World}

-- ============================================================ what is lost

/-- The value `v.2`, in `w'`, that a taker on thread `t` gets for the
entry `e` of `w`. -/
def Delivers (E : Engine) (w w' : World) (t : ThreadId)
    (e : Key × Storage) (v : Key × Zval) : Prop :=
  v.1 = e.1 ∧ (Denotes w' e.2 v.2
    ∨ v.2 = .null ∧ w.storageLost E t e.2 = true)

theorem Delivers.plain {e : Key × Storage} {v : Key × Zval}
    (h : Delivers E w w' t e v) :
    Delivers E w w' t (e.1, e.2.plain) v := by
  obtain ⟨k, st⟩ := e
  obtain ⟨hk, h⟩ := h
  refine ⟨hk, h.imp (fun hd => ?_) fun ⟨hn, hl⟩ => ⟨hn, ?_⟩⟩
  · cases st <;> exact hd
  · cases st <;> exact hl

theorem Denotes.commit {st : Storage} {v : Zval} (h : Denotes w st v)
    (c : Addr) (s : TsAddr) (r : Local × Store Storage) :
    Denotes (w.commit c s r) st v :=
  h.mono (fun _ _ _ hp => hp) (.refl w) fun a _ _ hb =>
    (birthOf_commit w c a s r).trans hb

theorem Delivers.commit {e : Key × Storage} {v : Key × Zval}
    (h : Delivers E w w' t e v) (c : Addr) (s : TsAddr)
    (r : Local × Store Storage) :
    Delivers E w (w'.commit c s r) t e v :=
  ⟨h.1, h.2.imp_left fun hd => hd.commit c s r⟩

end PmmpThread.Model.World
