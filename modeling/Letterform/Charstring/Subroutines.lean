import Letterform.Charstring.Error

/-!
# Subroutines

Calls name a subroutine by a number from which a bias has been taken off, so that short operands
reach as many subroutines as possible.
-/

namespace Letterform.Charstring

structure Subroutines where
  items : Array (List UInt8) := #[]
  bias : Int := 0
  deriving Repr

namespace Subroutines

instance : Inhabited Subroutines := ⟨{}⟩

def biasOf (count : Nat) : Int :=
  if count < 1240 then 107 else if count < 33900 then 1131 else 32768

/-- Type 1 knows no bias. -/
def ofArray (items : Array (List UInt8)) (version : Version) : Subroutines :=
  { items, bias := if version = .type1 then 0 else biasOf items.size }

def count (s : Subroutines) : Nat := s.items.size

def get (s : Subroutines) (operand : Int) : Except Error (List UInt8) :=
  if s.items.isEmpty then .error .missingSubroutines
  else
    let index := min (operand + s.bias) 0x7fffffff
    match (if 0 ≤ index then s.items[index.toNat]? else none) with
    | some code => .ok code
    | none => .error (.subroutineIndexOutOfRange index s.count)

end Subroutines

end Letterform.Charstring
