import Letterform.Charstring.Error
import Letterform.Number.Scalar

/-!
# The operand stack

Every operation looks at the top of the stack only, except that a width is taken from the bottom.
-/

namespace Letterform.Charstring

variable {α : Type} [Scalar α]

/-- Operands, the topmost one first, and how many of them there may be. -/
structure Stack (α : Type) where
  values : List α := []
  limit : Nat
  deriving BEq, DecidableEq, Repr

namespace Stack

def size (s : Stack α) : Nat := s.values.length

def operands (s : Stack α) : List α := s.values.reverse

def clear (s : Stack α) : Stack α := { s with values := [] }

def push (s : Stack α) (a : α) : Except Error (Stack α) :=
  if s.size < s.limit then .ok { s with values := a :: s.values } else .error .stackOverflow

def pop (s : Stack α) : Except Error (α × Stack α) :=
  match s.values with
  | a :: rest => .ok (a, { s with values := rest })
  | [] => .error .stackUnderflow

def popInt (s : Stack α) : Except Error (Int × Stack α) := do
  let (a, s) ← s.pop
  return (Scalar.toInt32 a, s)

def popMany (s : Stack α) (count : Int) : Except Error (List α × Stack α) :=
  if count < 0 ∨ (s.size : Int) < count then .error .stackUnderflow
  else
    let n := count.toNat
    .ok ((s.values.take n).reverse, { s with values := s.values.drop n })

def replaceTop (s : Stack α) (f : α → α) : Except Error (Stack α) := do
  let (a, s) ← s.pop
  s.push (f a)

def combineTop (s : Stack α) (f : α → α → α) : Except Error (Stack α) := do
  let (b, s) ← s.pop
  let (a, s) ← s.pop
  s.push (f a b)

/-- Pushes a copy of the operand this far below the top; a negative depth means the top. -/
def copy (s : Stack α) (depth : Int) : Except Error (Stack α) :=
  match s.values[depth.toNat]? with
  | some a => s.push a
  | none => .error .stackUnderflow

/-- Rotates the topmost operands: each moves up by the shift, and those that leave at the top
come back at the bottom. -/
def roll (s : Stack α) (count shift : Int) : Except Error (Stack α) :=
  if count < 0 ∨ (s.size : Int) < count then .error .stackUnderflow
  else
    let n := count.toNat
    let turned := (s.values.take n).rotateLeft (shift.emod count).toNat
    .ok { s with values := turned ++ s.values.drop n }

def blended (scalars : List α) (value : α) (deltas : List α) : α :=
  (deltas.zip scalars).foldl
    (fun sum (delta, scalar) => if scalar == 0 then sum else sum + delta * scalar) value

/-- Replaces values and their deltas by blended values. The values come first; then each of them
has a delta for every region. -/
def blend (s : Stack α) (scalars : List α) : Except Error (Stack α) := do
  let (count, s) ← s.popInt
  let (operands, s) ← s.popMany (count * (scalars.length + 1))
  let n := count.toNat
  let deltas := operands.drop n
  let values := (operands.take n).zipIdx.map fun (value, i) =>
    blended scalars value ((deltas.drop (i * scalars.length)).take scalars.length)
  return { s with values := values.reverse ++ s.values }

end Stack

end Letterform.Charstring
