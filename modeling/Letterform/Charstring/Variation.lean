import Letterform.Number.Scalar

/-!
# Variation data

A variable font stores, for some regions of its design space, by how much operands change there.
At a location each region counts with a scalar between 0 and 1.
-/

namespace Letterform.Charstring

variable {α : Type} [Scalar α]

structure RegionAxis (α : Type) where
  start : α
  peak : α
  stop : α
  deriving BEq, DecidableEq, Repr

abbrev Region (α : Type) := List (RegionAxis α)

namespace RegionAxis

/-- Whether an axis limits its region: its three positions are in order, and the peak lies off
the default on the same side as the others. -/
def isEffective (r : RegionAxis α) : Bool :=
  !(decide (r.peak < r.start) || decide (r.stop < r.peak) || r.peak == 0 ||
    (decide (r.start < 0) && decide (0 < r.stop)))

def factor? (r : RegionAxis α) (coordinate : α) : Option α :=
  if !r.isEffective then some 1
  else if coordinate < r.start ∨ r.stop < coordinate then none
  else if coordinate == r.peak then some 1
  else if coordinate < r.peak then some ((coordinate - r.start) / (r.peak - r.start))
  else some ((r.stop - coordinate) / (r.stop - r.peak))

end RegionAxis

namespace Region

/-- The scalar of a region at a location, which is given in 2.14 words. Coordinates that are
missing are zero. -/
def scalar (region : Region α) (location : List Int) : α :=
  let factors := region.zipIdx.mapM fun (axis, i) =>
    axis.factor? (Scalar.ofTwoDotFourteen (location.getD i 0))
  match factors with
  | some factors => factors.foldl (· * ·) 1
  | none => 0

end Region

/-- The regions of a font, and for each set of variation data the regions it has deltas for. -/
structure VariationStore (α : Type) where
  regions : List (Region α) := []
  data : List (List Nat) := []
  deriving BEq, DecidableEq, Repr

namespace VariationStore

/-- The scalars of the regions of a set of variation data. A region that the store lacks counts
with zero. -/
def scalars? (store : VariationStore α) (location : List Int) (index : Nat) : Option (List α) :=
  store.data[index]?.map fun regions =>
    regions.map fun i =>
      match store.regions[i]? with
      | some region => region.scalar location
      | none => 0

end VariationStore

end Letterform.Charstring
