import Letterform.Number.Scalar

/-!
# Doubles as scalars

What the processor computes is defined by the packed words of `Float.Model`. Most operations
without a definition there are given here by unpacking a double into sign, mantissa and exponent
and working on whole numbers, so that each of them rounds exactly once. The length of a hypotenuse
is computed in doubles and may be off by one in the last place.
-/

namespace Letterform.Double

open Float.Model
open Float.Model.UnpackedFloat (Sign)

def ofParts (sign : Sign) (mantissa : Nat) (exponent : Int) : Float :=
  .ofModel (pack (.round .binary64 sign mantissa exponent))

/-- Replaces the magnitude `m / 2 ^ k` of a double that has a fraction part by the whole number
that `rule` picks. Other doubles stay as they are. -/
def withWhole (rule : Sign → (m k : Nat) → Nat) (x : Float) : Float :=
  match x.toModel.unpack with
  | .finite sign m e _ => if 0 ≤ e then x else ofParts sign (rule sign m (-e).toNat) 0
  | _ => x

def floor : Float → Float :=
  withWhole fun sign m k =>
    match sign with
    | .positive => m >>> k
    | .negative => (m + ((1 <<< k) - 1)) >>> k

def round : Float → Float :=
  withWhole fun _ m k => (m + (1 <<< (k - 1))) >>> k

def truncate (low high : Int) (x : Float) : Int :=
  max low (min high (x.toModel.unpack.toInt low high))

def powerOfTwo (exponent : Int) : Float := ofParts .positive 1 exponent

/-- The root of the sum of the squares of `a` and `b`, where `0 ≤ b ≤ a` and neither square
overflows or vanishes. The rounded root is corrected by one step of Newton's method. Its error, the
square of the root less the sum of squares, is computed from the difference between the root and
one of the sides, since the squares themselves would cancel. -/
def correctedRoot (a b : Float) : Float :=
  let root := (a * a + b * b).sqrt
  let error :=
    if root ≤ 2 * b then
      let d := root - b
      a * (2 * d - a) + (d - 2 * (a - b)) * d
    else
      let d := root - a
      2 * d * (a - 2 * b) + ((4 * d - b) * b + d * d)
  root - error / (2 * root)

/-- The length of the hypotenuse. A side that is lost in the other one is added to it, and sides
whose squares are out of range are scaled. -/
def hypot (x y : Float) : Float :=
  let a := if x.abs < y.abs then y.abs else x.abs
  let b := if x.abs < y.abs then x.abs else y.abs
  let scale := powerOfTwo 600
  if x.isInf || y.isInf then .ofModel (pack (.infinity .positive))
  else if b * powerOfTwo 54 ≤ a then a + b
  else if powerOfTwo 511 < a then correctedRoot (a / scale) (b / scale) * scale
  else if b < powerOfTwo (-459) then correctedRoot (a * scale) (b * scale) / scale
  else correctedRoot a b

def narrow (x : Float) : Float :=
  match x.toModel.unpack with
  | .finite sign m e _ =>
    match UnpackedFloat.unpack .binary32 (UnpackedFloat.pack _ (.round .binary32 sign m e)) with
    | .finite sign m e _ => ofParts sign m e
    | special => .ofModel (pack special)
  | _ => x

instance : Scalar Float where
  decLt := inferInstance
  decLe := inferInstance
  ofInt := .ofInt
  floor := floor
  round := round
  truncate := truncate
  sqrt := .sqrt
  hypot := hypot
  sixthRoot x := x.pow (1 / 6)
  narrow := narrow

end Letterform.Double
