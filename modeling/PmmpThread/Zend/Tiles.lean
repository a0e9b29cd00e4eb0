/-
Extents that lie one behind the other: what a bump pointer leaves when it
goes from one end of an interval to the other. They fill it (`Tiles`), so
they are inside (`Tiles.inside`) and do not overlap (`Tiles.pairwise`).
-/
import Mathlib.Tactic.Ring

namespace PmmpThread.Zend

/-- Bytes from an address on. -/
structure Extent where
  addr : Nat
  size : Nat
  deriving DecidableEq, Repr

namespace Extent

/-- The extent lies between the two addresses. -/
def Inside (lo hi : Nat) (x : Extent) : Prop :=
  lo ≤ x.addr ∧ x.addr + x.size ≤ hi

/-- One ends before the other begins. -/
def Disjoint (x y : Extent) : Prop :=
  x.addr + x.size ≤ y.addr ∨ y.addr + y.size ≤ x.addr

end Extent

/-- The extents fill the interval, in order. -/
def Tiles : Nat → Nat → List Extent → Prop
  | lo, hi, [] => lo = hi
  | lo, hi, x :: xs => x.addr = lo ∧ 0 < x.size ∧ Tiles (lo + x.size) hi xs

variable {lo mid hi : Nat} {x : Extent} {xs ys : List Extent}

/-- One extent covers itself. -/
theorem tiles_single {a n : Nat} (hn : 0 < n) : Tiles a (a + n) [⟨a, n⟩] :=
  ⟨rfl, hn, rfl⟩

/-- Two blocks side by side. -/
theorem Tiles.append (hx : Tiles lo mid xs) (hy : Tiles mid hi ys) :
    Tiles lo hi (xs ++ ys) := by
  induction xs generalizing lo with
  | nil =>
      have hlo : lo = mid := hx
      rw [hlo]
      exact hy
  | cons x xs ih => exact ⟨hx.1, hx.2.1, ih hx.2.2⟩

theorem Tiles.le (hx : Tiles lo hi xs) : lo ≤ hi := by
  induction xs generalizing lo with
  | nil =>
      have hlo : lo = hi := hx
      omega
  | cons x xs ih =>
      have hrest := ih hx.2.2
      omega

/-- No tile is empty or sticks out. -/
theorem Tiles.inside (hx : Tiles lo hi xs) :
    ∀ x ∈ xs, x.Inside lo hi ∧ 0 < x.size := by
  induction xs generalizing lo with
  | nil => exact fun x hx => absurd hx List.not_mem_nil
  | cons y ys ih =>
      intro x hmem
      obtain ⟨haddr, hpos, hrest⟩ := hx
      rcases List.mem_cons.mp hmem with rfl | hmem
      · have hle := hrest.le
        exact ⟨⟨by omega, by omega⟩, hpos⟩
      · obtain ⟨⟨hlo, hhi⟩, hsize⟩ := ih hrest x hmem
        exact ⟨⟨by omega, hhi⟩, hsize⟩

/-- Tiles do not overlap. -/
theorem Tiles.pairwise (hx : Tiles lo hi xs) :
    xs.Pairwise Extent.Disjoint := by
  induction xs generalizing lo with
  | nil => exact List.Pairwise.nil
  | cons y ys ih =>
      obtain ⟨haddr, hpos, hrest⟩ := hx
      refine List.Pairwise.cons (fun x hmem => Or.inl ?_) (ih hrest)
      obtain ⟨⟨hlo, -⟩, -⟩ := hrest.inside x hmem
      omega

/-- The sizes add up to the block. -/
theorem Tiles.sum (hx : Tiles lo hi xs) :
    lo + (xs.map Extent.size).sum = hi := by
  induction xs generalizing lo with
  | nil => exact hx
  | cons y ys ih =>
      have hrest := ih hx.2.2
      rw [List.map_cons, List.sum_cons]
      omega

/-- Where one of the extents starts. -/
theorem Tiles.addr_mem (hx : Tiles lo hi xs) (hmem : x ∈ xs) :
    lo ≤ x.addr ∧ x.addr < hi := by
  obtain ⟨⟨hlo, hhi⟩, hpos⟩ := hx.inside x hmem
  omega

end PmmpThread.Zend
