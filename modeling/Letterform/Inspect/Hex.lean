import Letterform.Inspect.Quoted

/-!
# Bytes as hexadecimal text
-/

namespace Letterform.Inspect.Hex

inductive Error
  | invalidDigit (byte : UInt8)
  | oddCount
  deriving DecidableEq, Repr

def Error.message : Error → String
  | invalidDigit byte =>
    "invalid hex digit '" ++ Quoted.asciiChar (Char.ofNat byte.toNat) ++ "'"
  | oddCount => "hex input has an odd number of digits"

/-- Space, tab, line feed, form feed and carriage return. -/
def isBlank (byte : UInt8) : Bool := byte ∈ [0x20, 0x09, 0x0a, 0x0c, 0x0d]

def digit (byte : UInt8) : Except Error UInt8 :=
  if 0x30 ≤ byte ∧ byte ≤ 0x39 then .ok (byte - 0x30)
  else if 0x61 ≤ byte ∧ byte ≤ 0x66 then .ok (byte - 0x61 + 10)
  else if 0x41 ≤ byte ∧ byte ≤ 0x46 then .ok (byte - 0x41 + 10)
  else .error (.invalidDigit byte)

def joinDigits : List UInt8 → Except Error (List UInt8)
  | [] => .ok []
  | [_] => .error .oddCount
  | high :: low :: rest => do return (high * 16 + low) :: (← joinDigits rest)

/-- Reads a text. Blanks may stand anywhere. -/
def parse (text : List UInt8) : Except Error (List UInt8) := do
  joinDigits (← (text.filter (!isBlank ·)).mapM digit)

def pair (byte : UInt8) : String :=
  let upper (n : Nat) := (Nat.digitChar n).toUpper
  String.ofList [upper (byte.toNat / 16), upper (byte.toNat % 16)]

def line (bytes : List UInt8) : String := " ".intercalate (bytes.map pair)

end Letterform.Inspect.Hex
