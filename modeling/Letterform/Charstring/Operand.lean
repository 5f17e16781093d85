import Letterform.Charstring.Version
import Letterform.Number.BigEndian
import Letterform.Number.Scalar

/-!
# Operands

A whole number between -1131 and 1131 takes one or two bytes and a 16-bit one takes three, except
in Type 1. All other operands take five bytes, a 32-bit integer in Type 1 and a 16.16 number in
the later dialects.
-/

namespace Letterform.Charstring

variable {α : Type} [Scalar α]

namespace Operand

def starts (version : Version) (b : UInt8) : Bool :=
  32 ≤ b || (b == 28 && version ≠ .type1)

def read? (version : Version) (b : UInt8) (code : List UInt8) : Option (α × List UInt8) :=
  let first : Int := b.toNat
  if b = 28 then
    match code with
    | b1 :: b2 :: rest => some (Scalar.ofInt (BigEndian.signed [b1, b2]), rest)
    | _ => none
  else if b ≤ 246 then some (Scalar.ofInt (first - 139), code)
  else if b = 255 then
    match code with
    | b1 :: b2 :: b3 :: b4 :: rest =>
      let bits := BigEndian.signed [b1, b2, b3, b4]
      some (if version = .type1 then Scalar.ofInt bits else Scalar.ofFixed bits, rest)
    | _ => none
  else
    match code with
    | b1 :: rest =>
      let second : Int := b1.toNat
      let n :=
        if b ≤ 250 then (first - 247) * 256 + second + 108
        else (251 - first) * 256 - second - 108
      some (Scalar.ofInt n, rest)
    | [] => none

def shortForm? (version : Version) (n : Int) : Option (List UInt8) :=
  if -107 ≤ n ∧ n ≤ 107 then some [UInt8.ofNat (n + 139).toNat]
  else if 108 ≤ n ∧ n ≤ 1131 then
    let v := (n - 108).toNat
    some [UInt8.ofNat (v / 256 + 247), UInt8.ofNat (v % 256)]
  else if -1131 ≤ n ∧ n ≤ -108 then
    let v := (-n - 108).toNat
    some [UInt8.ofNat (v / 256 + 251), UInt8.ofNat (v % 256)]
  else if -32768 ≤ n ∧ n ≤ 32767 ∧ version ≠ .type1 then some (28 :: BigEndian.encode 2 n)
  else none

/-- The shortest bytes for an operand. Type 1 has whole numbers only; others are rounded there. -/
def write (version : Version) (a : α) : List UInt8 :=
  let a := if version = .type1 then Scalar.round a else a
  let short := if Scalar.isWhole a then shortForm? version (Scalar.toInt32 a) else none
  let word := if version = .type1 then Scalar.toInt32 a else Scalar.toFixed a
  short.getD (255 :: BigEndian.encode 4 word)

end Operand

end Letterform.Charstring
