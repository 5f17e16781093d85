/-!
# Dialects of charstrings
-/

namespace Letterform.Charstring

inductive Version
  | type1
  | type2
  | cff2
  deriving DecidableEq, Repr

namespace Version

instance : Inhabited Version := ⟨type2⟩

def name : Version → String
  | type1 => "Type1"
  | type2 => "Type2"
  | cff2 => "CFF2"

def stackLimit : Version → Nat
  | type1 | type2 => 48
  | cff2 => 513

end Version

def callLimit : Nat := 10

end Letterform.Charstring
