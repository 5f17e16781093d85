/-!
# Integers as bytes

Integers stand in font data in two's complement, the most significant byte first.
-/

namespace Letterform.BigEndian

def encode (count : Nat) (n : Int) : List UInt8 :=
  (List.range count).reverse.map fun i => UInt8.ofNat (n.shiftRight (8 * i) % 256).toNat

def unsigned (bytes : List UInt8) : Nat := bytes.foldl (fun n b => n * 256 + b.toNat) 0

def signed (bytes : List UInt8) : Int := Int.bmod (unsigned bytes) (1 <<< (8 * bytes.length))

end Letterform.BigEndian
