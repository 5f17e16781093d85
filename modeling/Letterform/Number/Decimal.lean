/-!
# Shortest decimals

A binary floating-point number is written with the fewest decimal digits that read back as
the same number, and with the nearest such digits to it. The text is always positional: no
exponent, and no point in a whole number.
-/

namespace Letterform

/-- The number `coefficient * 10 ^ exponent`. -/
structure Decimal where
  coefficient : Nat
  exponent : Int
  deriving DecidableEq, Repr

namespace Decimal

open Float.Model

/-- The multiples of `10 ^ exponent` next to `m * 2 ^ e` that read back as it, nearest first.
In quarters of the last place, `4 * m - below` and `4 * m + 2` bound what reads back; the
bounds themselves do so if the mantissa is even. -/
def neighbour? (m : Nat) (e : Int) (below : Nat) (exponent : Int) : Option Nat :=
  let a := Nat.pow 10 exponent.toNat <<< (2 - e).toNat
  let b := Nat.pow 10 (-exponent).toNat <<< (e - 2).toNat
  let value := 4 * m * b
  let readsBack (c : Nat) : Bool :=
    let low := (4 * m - below) * b
    let high := (4 * m + 2) * b
    if m % 2 = 0 then low ≤ c * a && c * a ≤ high else low < c * a && c * a < high
  let c := value / a
  match readsBack c, readsBack (c + 1) with
  | true, true => some (if value - c * a < (c + 1) * a - value then c else c + 1)
  | true, false => some c
  | false, true => some (c + 1)
  | false, false => none

/-- Tries ever finer grids, at most `tries` of them, and takes the first one that has a number
to offer. -/
def search (m : Nat) (e : Int) (below : Nat) : (tries : Nat) → (exponent : Int) → Decimal
  | 0, exponent => ⟨m, exponent⟩
  | tries + 1, exponent =>
    match neighbour? m e below exponent with
    | some c => ⟨c, exponent⟩
    | none => search m e below tries (exponent - 1)

/-- The shortest decimal for `m * 2 ^ e`, where `m` and `e` are the mantissa and exponent of a
positive number of the format. The gap below a power of two is half as wide as the one above. -/
def shortest (format : Format) (m : Nat) (e : Int) : Decimal :=
  let narrowGap := m = 1 <<< (format.mantissaBits - 1) ∧ format.minExponent < e
  let magnitude := (m.log2 : Int) + 1 + e
  search m e (if narrowGap then 1 else 2) 24 (magnitude * 30103 / 100000 + 1)

def text (d : Decimal) : String :=
  let digits := toString d.coefficient
  let zeros (n : Nat) := String.ofList (List.replicate n '0')
  if 0 ≤ d.exponent then digits ++ zeros d.exponent.toNat
  else
    let places := (-d.exponent).toNat
    let padded := zeros (places + 1 - digits.length) ++ digits
    let whole := padded.length - places
    String.ofList (padded.toList.take whole) ++ "." ++ String.ofList (padded.toList.drop whole)

def textOf (format : Format) (x : UnpackedFloat) : String :=
  let signed (sign : UnpackedFloat.Sign) (magnitude : String) :=
    match sign with
    | .positive => magnitude
    | .negative => "-" ++ magnitude
  match x with
  | .notANumber => "NaN"
  | .infinity sign => signed sign "inf"
  | .zero sign => signed sign "0"
  | .finite sign m e _ => signed sign (shortest format m e).text

def ofDouble (x : Float) : String :=
  textOf .binary64 x.toModel.unpack

def ofSingle (x : Float) : String :=
  match x.toModel.unpack with
  | .finite sign m e _ =>
    textOf .binary32 (.unpack .binary32 (UnpackedFloat.pack _ (.round .binary32 sign m e)))
  | special => textOf .binary32 special

end Decimal

end Letterform
