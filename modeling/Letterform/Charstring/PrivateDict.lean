import Letterform.Number.Scalar

/-!
# Private dictionaries

The values of a font's private dictionary, in the order in which they were first set.
-/

namespace Letterform.Charstring

variable {α : Type} [Scalar α]

inductive PrivateKey
  | blueValues
  | otherBlues
  | familyBlues
  | familyOtherBlues
  | blueScale
  | blueShift
  | blueFuzz
  | stdHw
  | stdVw
  | stemSnapH
  | stemSnapV
  | forceBold
  | languageGroup
  | expansionFactor
  | defaultWidthX
  | nominalWidthX
  | variationStoreIndex
  | lenIv
  deriving DecidableEq, Repr

inductive DictValue (α : Type)
  | number (value : α)
  | array (values : List α)
  | bool (value : Bool)
  /-- A value with a delta for each region. -/
  | blend (default : α) (deltas : List α)
  deriving BEq, DecidableEq, Repr

namespace DictValue

def number? (scalars : List α) : DictValue α → Option α
  | number value => some value
  | array _ => none
  | bool value => some (if value then 1 else 0)
  | blend default deltas =>
    some ((deltas.zip scalars).foldl (fun sum (delta, scalar) => sum + delta * scalar) default)

end DictValue

structure PrivateDict (α : Type) where
  entries : List (PrivateKey × DictValue α) := []
  deriving BEq, DecidableEq, Repr

namespace PrivateDict

instance : Inhabited (PrivateDict α) := ⟨{}⟩

def get? (d : PrivateDict α) (key : PrivateKey) : Option (DictValue α) :=
  (d.entries.find? (·.1 = key)).map Prod.snd

/-- Sets a value in its place; a new key goes to the end. -/
def set (d : PrivateDict α) (key : PrivateKey) (value : DictValue α) : PrivateDict α :=
  if d.entries.any (·.1 = key) then
    { d with entries := d.entries.map fun e => if e.1 = key then (key, value) else e }
  else { d with entries := d.entries ++ [(key, value)] }

def blended? (d : PrivateDict α) (key : PrivateKey) (scalars : List α) : Option α :=
  (d.get? key).bind (·.number? scalars)

def number? (d : PrivateDict α) (key : PrivateKey) : Option α := d.blended? key []

def defaultWidthX (d : PrivateDict α) : α := (d.number? .defaultWidthX).getD 0

def nominalWidthX (d : PrivateDict α) : α := (d.number? .nominalWidthX).getD 0

def variationStoreIndex (d : PrivateDict α) : Nat :=
  match d.number? .variationStoreIndex with
  | some a => (Scalar.truncate 0 0xffff a).toNat
  | none => 0

/-- The number of random bytes before an encrypted charstring; four unless the font says else. -/
def lenIv (d : PrivateDict α) : Int :=
  match d.number? .lenIv with
  | some a => Scalar.toInt32 a
  | none => 4

end PrivateDict

end Letterform.Charstring
