/-!
# Encryption of Type 1 charstrings

Each byte is combined with the high byte of a 16-bit key, and the cipher byte then drives the key
on. A number of bytes before the program make it start at a key that depends on them.
-/

namespace Letterform.Charstring.Cipher

def initialKey : UInt16 := 4330

def nextKey (key : UInt16) (cipher : UInt8) : UInt16 :=
  (cipher.toUInt16 + key) * 52845 + 22719

def mask (key : UInt16) : UInt8 := (key >>> 8).toUInt8

def encryptFrom (key : UInt16) : List UInt8 → List UInt8
  | [] => []
  | plain :: rest =>
    let cipher := plain ^^^ mask key
    cipher :: encryptFrom (nextKey key cipher) rest

def decryptFrom (key : UInt16) : List UInt8 → List UInt8
  | [] => []
  | cipher :: rest => (cipher ^^^ mask key) :: decryptFrom (nextKey key cipher) rest

/-- Puts zero bytes in front and encrypts. A negative number of them means no encryption. -/
def encrypt (code : List UInt8) (lenIv : Int) : List UInt8 :=
  if lenIv < 0 then code else encryptFrom initialKey (List.replicate lenIv.toNat 0 ++ code)

/-- Decrypts and drops the bytes in front. A negative number of them means no encryption. -/
def decrypt (code : List UInt8) (lenIv : Int) : List UInt8 :=
  if lenIv < 0 then code else (decryptFrom initialKey code).drop lenIv.toNat

end Letterform.Charstring.Cipher
