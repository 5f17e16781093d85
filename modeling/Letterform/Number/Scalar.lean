/-!
# The numbers that outlines are made of

Points, stems, operands and transforms are written once, over any type that is a `Scalar`.
Fonts are read and written in doubles; a type of exact numbers says what the same rules
mean without rounding.

The class holds the operations that depend on the representation. Every rule of the font
formats about numbers (the grid of charstring coordinates, the tolerance on it, the 16.16 and
2.14 words) is an ordinary definition on top of them.
-/

namespace Letterform

class Scalar (α : Type) extends Add α, Sub α, Mul α, Div α, Neg α, LT α, LE α, BEq α where
  decLt : DecidableLT α
  decLe : DecidableLE α
  ofInt : Int → α
  floor : α → α
  /-- The nearest whole number; a half goes away from zero. -/
  round : α → α
  /-- Drops the fraction and brings what is left between two bounds, the lower one first.
  Something that is not a number counts as zero. -/
  truncate : Int → Int → α → Int
  sqrt : α → α
  hypot : α → α → α
  sixthRoot : α → α
  narrow : α → α

namespace Scalar

variable {α : Type} [Scalar α]

instance : DecidableLT α := decLt

instance : DecidableLE α := decLe

instance (priority := low) (n : Nat) : OfNat α n := ⟨ofInt n⟩

/-- Distance from zero. A negative zero becomes a positive one. -/
def abs (a : α) : α := if a ≤ 0 then 0 - a else a

/-- The smaller of two numbers, the first one of equals. What is not a number loses. -/
def least (a b : α) : α := if b < a then b else if a == a then a else b

/-- The larger of two numbers, the first one of equals. What is not a number loses. -/
def greatest (a b : α) : α := if a < b then b else if a == a then a else b

/-- The nearest whole number; a half goes up. -/
def roundUp (a : α) : α := floor (a + 1 / 2)

def isWhole (a : α) : Bool := a - floor a == 0

/-- Charstring coordinates are kept to one part in 1024 of a unit. -/
def snap (a : α) : α := round (a * 1024) / 1024

/-- Equality at the precision of charstring coordinates. -/
def isClose (a b : α) : Bool := abs (a - b) < 1 / 2 / 1024

def toInt16 : α → Int := truncate (-0x8000) 0x7fff

def toInt32 : α → Int := truncate (-0x80000000) 0x7fffffff

/-- The 16.16 word nearest to a number; a half goes away from zero. -/
def toFixed (a : α) : Int :=
  toInt32 (if a < 0 then a * 65536 - 1 / 2 else a * 65536 + 1 / 2)

def ofFixed (bits : Int) : α := ofInt bits / 65536

/-- The 2.14 word of a number, computed in single precision; a half goes away from zero. -/
def toTwoDotFourteen (a : α) : Int :=
  let a := narrow a
  let scaled := narrow (a * 16384)
  toInt16 (narrow (if a < 0 then scaled - 1 / 2 else scaled + 1 / 2))

def ofTwoDotFourteen (bits : Int) : α := ofInt bits / 16384

end Scalar

end Letterform
