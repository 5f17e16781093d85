import Letterform.Charstring.Operator
import Letterform.Number.Scalar

/-!
# What path operators draw

A path operator stands for a run of lines and curves. The shorter an operator's operands, the
more it takes for granted about the run: which displacements are zero, in which direction the
next segment sets out, and which of the curves may have one displacement more.

Operands are listed from the bottom of the stack. Those left over at the end are ignored.
-/

namespace Letterform.Charstring

variable {α : Type} [Scalar α]

/-- A line or a curve, given by the displacements from one of its points to the next. -/
inductive PathStep (α : Type)
  | line (dx dy : α)
  | curve (dx1 dy1 dx2 dy2 dx3 dy3 : α)
  deriving BEq, DecidableEq, Repr

namespace PathStep

def lines : List α → List (PathStep α)
  | dx :: dy :: rest => line dx dy :: lines rest
  | _ => []

/-- Lines that are horizontal and vertical in turn. -/
def alternatingLines (horizontal : Bool) : List α → List (PathStep α)
  | d :: rest =>
    (if horizontal then line d 0 else line 0 d) :: alternatingLines (!horizontal) rest
  | [] => []

def curves : List α → List (PathStep α)
  | a :: b :: c :: d :: e :: f :: rest => curve a b c d e f :: curves rest
  | _ => []

/-- Curves that begin and end in the same direction; the first one may begin off it. -/
def levelCurves (horizontal : Bool) (off : α) : List α → List (PathStep α)
  | a :: b :: c :: d :: rest =>
    (if horizontal then curve a off b c d 0 else curve off a b c 0 d) ::
      levelCurves horizontal 0 rest
  | _ => []

/-- Curves that begin in one direction and end in the other, in turn; the last one may end off
it. -/
def turningCurves (horizontal : Bool) : List α → List (PathStep α)
  | [a, b, c, d, off] => [if horizontal then curve a 0 b c off d else curve 0 a b c d off]
  | a :: b :: c :: d :: rest =>
    (if horizontal then curve a 0 b c 0 d else curve 0 a b c d 0) ::
      turningCurves (!horizontal) rest
  | _ => []

end PathStep

namespace PathOperator

open PathStep

/-- The curves of a flex that returns to its height or, if it goes more sideways than up, to its
side. -/
def flexBack : List α → List (PathStep α)
  | dx1 :: dy1 :: dx2 :: dy2 :: dx3 :: dy3 :: dx4 :: dy4 :: dx5 :: dy5 :: d6 :: _ =>
    let dx := dx1 + dx2 + dx3 + dx4 + dx5
    let dy := dy1 + dy2 + dy3 + dy4 + dy5
    let first := curve dx1 dy1 dx2 dy2 dx3 dy3
    if Scalar.abs dy < Scalar.abs dx then [first, curve dx4 dy4 dx5 dy5 d6 (-dy)]
    else [first, curve dx4 dy4 dx5 dy5 (-dx) d6]
  | _ => []

/-- The run that an operator draws with these operands; nothing if they are too few. -/
def steps (op : PathOperator) (operands : List α) : List (PathStep α) :=
  match op with
  | rlineto => lines operands
  | hlineto => alternatingLines true operands
  | vlineto => alternatingLines false operands
  | rrcurveto => curves operands
  | rcurveline =>
    if operands.length < 8 then []
    else
      let split := operands.length - 2
      curves (operands.take split) ++ lines (operands.drop split)
  | rlinecurve =>
    if operands.length < 8 then []
    else
      let split := operands.length - 6
      lines (operands.take split) ++ curves (operands.drop split)
  | hhcurveto => level true
  | vvcurveto => level false
  | hvcurveto => turningCurves true operands
  | vhcurveto => turningCurves false operands
  | hflex =>
    match operands with
    | dx1 :: dx2 :: dy2 :: dx3 :: dx4 :: dx5 :: dx6 :: _ =>
      [curve dx1 0 dx2 dy2 dx3 0, curve dx4 0 dx5 (-dy2) dx6 0]
    | _ => []
  | flex => curves (if operands.length < 12 then [] else operands.take 12)
  | hflex1 =>
    match operands with
    | dx1 :: dy1 :: dx2 :: dy2 :: dx3 :: dx4 :: dx5 :: dy5 :: dx6 :: _ =>
      [curve dx1 dy1 dx2 dy2 dx3 0, curve dx4 0 dx5 dy5 dx6 (-(dy1 + dy2 + dy5))]
    | _ => []
  | flex1 => flexBack operands
where
  level (horizontal : Bool) : List (PathStep α) :=
    match operands with
    | off :: rest =>
      if operands.length % 2 = 1 then levelCurves horizontal off rest
      else levelCurves horizontal 0 operands
    | [] => []

end PathOperator

end Letterform.Charstring
