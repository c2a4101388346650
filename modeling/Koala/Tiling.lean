import Mathlib.Algebra.Order.BigOperators.Group.List
import Mathlib.Algebra.Order.Ring.Int
import Mathlib.Data.List.Basic
import Mathlib.Tactic.Common

namespace koala.tiling

/-- A range of positions, from its offset on. -/
structure Extent where
  offset : Nat
  length : Nat

/-- The extents cover the positions from `start` to `stop`, one after the other. -/
def Tiles : Nat → List Extent → Nat → Prop
  | start, [], stop => start = stop
  | start, e :: l, stop => e.offset = start ∧ Tiles (start + e.length) l stop

/-- The extents of the given lengths, one after the other. -/
def layout : Nat → List Nat → List Extent
  | _, [] => []
  | start, n :: ns => ⟨start, n⟩ :: layout (start + n) ns

theorem tiles_layout (start : Nat) (ns : List Nat) :
    Tiles start (layout start ns) (start + ns.sum) := by
  induction ns generalizing start with
  | nil => rfl
  | cons n ns ih =>
    rw [List.sum_cons, ← Nat.add_assoc]
    exact ⟨rfl, ih (start + n)⟩

theorem map_length_layout (start : Nat) (ns : List Nat) :
    (layout start ns).map Extent.length = ns := by
  induction ns generalizing start with
  | nil => rfl
  | cons n ns ih => rw [layout, List.map_cons, ih]

theorem Tiles.start_le {start stop : Nat} {l : List Extent} (h : Tiles start l stop) :
    ∀ e ∈ l, start ≤ e.offset := by
  induction l generalizing start with
  | nil => simp
  | cons e l ih =>
    obtain ⟨hoffset, hrest⟩ := h
    intro f hf
    rcases List.mem_cons.mp hf with rfl | hf
    · omega
    · have hle := ih hrest f hf
      omega

/-- The extents of a tiling do not overlap. -/
theorem Tiles.pairwise {start stop : Nat} {l : List Extent} (h : Tiles start l stop) :
    l.Pairwise fun e f => e.offset + e.length ≤ f.offset := by
  induction l generalizing start with
  | nil => exact List.Pairwise.nil
  | cons e l ih =>
    obtain ⟨rfl, hrest⟩ := h
    exact List.Pairwise.cons hrest.start_le (ih hrest)

end koala.tiling
