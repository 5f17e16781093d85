/-!
# Statistics of glyph records

A font states the largest values that occur in any of its records.
-/

namespace Letterform

structure Maxima where
  points : Nat := 0
  contours : Nat := 0
  compositePoints : Nat := 0
  compositeContours : Nat := 0
  componentElements : Nat := 0
  /-- Levels of components below a composite; one if they are all simple. -/
  componentDepth : Nat := 0
  sizeOfInstructions : Nat := 0
  deriving DecidableEq, Repr

namespace Maxima

instance : Inhabited Maxima := ⟨{}⟩

/-- A count as the font states it, in sixteen bits. -/
def saturate (count : Nat) : Nat := min count 0xffff

def merge (m n : Maxima) : Maxima where
  points := max m.points n.points
  contours := max m.contours n.contours
  compositePoints := max m.compositePoints n.compositePoints
  compositeContours := max m.compositeContours n.compositeContours
  componentElements := max m.componentElements n.componentElements
  componentDepth := max m.componentDepth n.componentDepth
  sizeOfInstructions := max m.sizeOfInstructions n.sizeOfInstructions

end Maxima

end Letterform
