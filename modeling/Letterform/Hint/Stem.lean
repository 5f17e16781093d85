import Letterform.Number.Scalar

/-!
# Stem hints

The stems of a glyph stand in two lists, one for each axis, ordered by start and width. Stems
are numbered in the order in which they were first added, over both axes together; a mask refers
to a stem by its number, so it stays right when other stems are added.
-/

namespace Letterform

variable {α : Type} [Scalar α]

inductive Axis
  | horizontal
  | vertical
  deriving DecidableEq, Repr

/-- A stem, from its edge nearest to the origin. Widths of -20 and -21 mark ghost stems. -/
structure Stem (α : Type) where
  start : α
  width : α
  number : Nat
  deriving BEq, DecidableEq, Repr

namespace Stem

def stop (s : Stem α) : α := s.start + s.width

def isAt (s : Stem α) (start width : α) : Bool :=
  Scalar.isClose s.start start && Scalar.isClose s.width width

/-- The order of a stem list: by start, then by width. -/
def isAfter (s t : Stem α) : Bool :=
  if s.start == t.start then t.width < s.width else t.start < s.start

end Stem

/-- The stems of a glyph and the number of the next new one, if there is one left. -/
structure StemHints (α : Type) where
  horizontal : List (Stem α) := []
  vertical : List (Stem α) := []
  next : Option Nat := some 0
  deriving BEq, DecidableEq, Repr

namespace StemHints

instance : Inhabited (StemHints α) := ⟨{}⟩

/-- A stem number has sixteen bits. -/
def limit : Nat := 0x10000

def numberAt (n : Nat) : Option Nat := if n < limit then some n else none

def onAxis (h : StemHints α) : Axis → List (Stem α)
  | .horizontal => h.horizontal
  | .vertical => h.vertical

def count (h : StemHints α) : Nat := h.horizontal.length + h.vertical.length

def isEmpty (h : StemHints α) : Bool := h.count == 0

def insert (stem : Stem α) (stems : List (Stem α)) : List (Stem α) :=
  stems.takeWhile (!·.isAfter stem) ++ stem :: stems.dropWhile (!·.isAfter stem)

/-- Adds a stem and returns its number. A stem that is already there keeps its number and is not
added again. There is no answer once every number has been given out. -/
def add (h : StemHints α) (axis : Axis) (start width : α) : Option (Nat × StemHints α) :=
  match (h.onAxis axis).find? (·.isAt start width) with
  | some stem => some (stem.number, h)
  | none => do
    let number ← h.next
    let stem : Stem α := { start, width, number }
    let next := numberAt (number + 1)
    return (number,
      match axis with
      | .horizontal => { h with horizontal := insert stem h.horizontal, next }
      | .vertical => { h with vertical := insert stem h.vertical, next })

def find? (h : StemHints α) (axis : Axis) (number : Nat) : Option (Stem α) :=
  (h.onAxis axis).find? (·.number == number)

/-- The stems of an axis in the order of their numbers. A charstring declares the horizontal stems
and then the vertical ones in this order, which gives each of them its bit in a mask. -/
def declared (h : StemHints α) (axis : Axis) : List (Stem α) :=
  (h.onAxis axis).mergeSort (fun s t => s.number ≤ t.number)

end StemHints

end Letterform
