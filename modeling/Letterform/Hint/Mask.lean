/-!
# Hint masks

A mask selects stems by their numbers. In a charstring it is a row of bytes in which the most
significant bit of the first byte stands for stem 0; here it is the set itself, so two masks are
equal exactly when they select the same stems.
-/

namespace Letterform

/-- A finite set of stem numbers, packed into the bits of a natural number. -/
structure HintMask where
  bits : Nat
  deriving DecidableEq, Repr

namespace HintMask

def byteLength (stemCount : Nat) : Nat := (stemCount + 7) / 8

def empty : HintMask := ⟨0⟩

instance : Inhabited HintMask := ⟨empty⟩

def isEmpty (m : HintMask) : Bool := m.bits == 0

def contains (m : HintMask) (n : Nat) : Bool := m.bits.testBit n

instance : Membership Nat HintMask := ⟨fun m n => m.contains n = true⟩

instance (n : Nat) (m : HintMask) : Decidable (n ∈ m) :=
  inferInstanceAs (Decidable (m.contains n = true))

def insert (m : HintMask) (n : Nat) : HintMask := ⟨m.bits ||| 1 <<< n⟩

def erase (m : HintMask) (n : Nat) : HintMask :=
  if m.contains n then ⟨m.bits ^^^ 1 <<< n⟩ else m

def toList (m : HintMask) : List Nat :=
  (List.range (if m.bits = 0 then 0 else m.bits.log2 + 1)).filter m.contains

def ofList (ns : List Nat) : HintMask := ns.foldl insert empty

/-- Gives every stem a new number; a stem without one is dropped. -/
def renumber (m : HintMask) (f : Nat → Option Nat) : HintMask :=
  ofList (m.toList.filterMap f)

/-- The numbers below 8 whose bits are set in a byte, counted from the most significant one. -/
def bitsOfByte (b : UInt8) : List Nat :=
  (List.range 8).filter fun i => b.toNat.testBit (7 - i)

def ofBytes (bytes : List UInt8) : HintMask :=
  ofList (bytes.zipIdx.flatMap fun (b, i) => (bitsOfByte b).map (8 * i + ·))

/-- The byte that holds the eight numbers from `8 * i` on, as far as they are below a bound. -/
def byteAt (m : HintMask) (bound i : Nat) : UInt8 :=
  (List.range 8).foldl
    (fun b j => if 8 * i + j < bound && m.contains (8 * i + j) then b ||| 0x80 >>> j.toUInt8 else b)
    0

/-- The mask as a charstring with this many stems has it. Numbers past the last stem are lost,
and the bits that fill up the last byte are zero. -/
def toBytes (m : HintMask) (stemCount : Nat) : List UInt8 :=
  (List.range (byteLength stemCount)).map (m.byteAt stemCount)

def text (m : HintMask) : String :=
  "\x7b" ++ ", ".intercalate (m.toList.map toString) ++ "\x7d"

end HintMask

end Letterform
