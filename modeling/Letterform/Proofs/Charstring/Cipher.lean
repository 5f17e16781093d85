import Letterform.Charstring.Cipher
import Mathlib

/-!
# Decrypting undoes encrypting

The key goes on with the cipher byte, which both directions see, so they stay in step from any key
on. Encrypting puts zeros in front and decrypting drops as many bytes without looking at them. So
what has been encrypted always comes back, and what has been decrypted comes back if the bytes
dropped were those of the zeros.
-/

namespace Letterform.Charstring.Cipher

variable {key : UInt16} {code plain : List UInt8}

-- ---------------------------------------------------------------------------
-- From any key on
-- ---------------------------------------------------------------------------

@[simp] theorem length_encryptFrom (key : UInt16) (code : List UInt8) :
    (encryptFrom key code).length = code.length := by
  induction code generalizing key with
  | nil => rfl
  | cons plain code ih => simp [encryptFrom, ih]

-- Both inductions are over all keys, since the key behind a byte depends on the byte.

@[simp] theorem decryptFrom_encryptFrom (key : UInt16) (code : List UInt8) :
    decryptFrom key (encryptFrom key code) = code := by
  induction code generalizing key with
  | nil => rfl
  | cons plain code ih => simp [encryptFrom, decryptFrom, ih]

@[simp] theorem encryptFrom_decryptFrom (key : UInt16) (code : List UInt8) :
    encryptFrom key (decryptFrom key code) = code := by
  induction code generalizing key with
  | nil => rfl
  | cons cipher code ih => simp [encryptFrom, decryptFrom, ih]

theorem encryptFrom_eq_iff : encryptFrom key plain = code ↔ plain = decryptFrom key code := by
  constructor
  · rintro rfl
    exact (decryptFrom_encryptFrom key plain).symm
  · rintro rfl
    exact encryptFrom_decryptFrom key code

theorem take_decryptFrom (key : UInt16) (code : List UInt8) (n : ℕ) :
    (decryptFrom key code).take n = decryptFrom key (code.take n) := by
  induction code generalizing key n with
  | nil => simp [decryptFrom]
  | cons cipher code ih =>
    cases n with
    | zero => rfl
    | succ n => simp [decryptFrom, ih]

-- ---------------------------------------------------------------------------
-- With bytes in front
-- ---------------------------------------------------------------------------

theorem encryptFrom_append_drop_iff {front : List UInt8} :
    encryptFrom key (front ++ (decryptFrom key code).drop front.length) = code ↔
      code.take front.length = encryptFrom key front := by
  calc encryptFrom key (front ++ (decryptFrom key code).drop front.length) = code
    _ ↔ front ++ (decryptFrom key code).drop front.length = decryptFrom key code :=
        encryptFrom_eq_iff
    _ ↔ front = (decryptFrom key code).take front.length := by
        rw [← List.prefix_iff_eq_append, List.prefix_iff_eq_take]
    _ ↔ encryptFrom key front = code.take front.length := by
        rw [take_decryptFrom, encryptFrom_eq_iff]
    _ ↔ code.take front.length = encryptFrom key front := eq_comm

def zeros (lenIv : ℤ) : List UInt8 := List.replicate lenIv.toNat 0

@[simp] theorem length_zeros (lenIv : ℤ) : (zeros lenIv).length = lenIv.toNat :=
  List.length_replicate

theorem encrypt_of_nonneg {lenIv : ℤ} (h : 0 ≤ lenIv) (code : List UInt8) :
    encrypt code lenIv = encryptFrom initialKey (zeros lenIv ++ code) := if_neg (not_lt.mpr h)

theorem decrypt_of_nonneg {lenIv : ℤ} (h : 0 ≤ lenIv) (code : List UInt8) :
    decrypt code lenIv = (decryptFrom initialKey code).drop lenIv.toNat := if_neg (not_lt.mpr h)

theorem encrypt_of_neg {lenIv : ℤ} (h : lenIv < 0) (code : List UInt8) :
    encrypt code lenIv = code := if_pos h

theorem decrypt_of_neg {lenIv : ℤ} (h : lenIv < 0) (code : List UInt8) :
    decrypt code lenIv = code := if_pos h

theorem decrypt_encrypt (code : List UInt8) (lenIv : ℤ) :
    decrypt (encrypt code lenIv) lenIv = code := by
  rcases lt_or_ge lenIv 0 with h | h
  · rw [encrypt_of_neg h, decrypt_of_neg h]
  · rw [encrypt_of_nonneg h, decrypt_of_nonneg h, decryptFrom_encryptFrom, ← length_zeros,
      List.drop_left]

theorem length_encrypt (code : List UInt8) (lenIv : ℤ) :
    (encrypt code lenIv).length = code.length + lenIv.toNat := by
  rcases lt_or_ge lenIv 0 with h | h
  · rw [encrypt_of_neg h, Int.toNat_of_nonpos h.le, add_zero]
  · rw [encrypt_of_nonneg h, length_encryptFrom, List.length_append, length_zeros, add_comm]

theorem encrypt_decrypt_iff {lenIv : ℤ} (h : 0 ≤ lenIv) (code : List UInt8) :
    encrypt (decrypt code lenIv) lenIv = code ↔
      code.take lenIv.toNat = encrypt (zeros lenIv) 0 := by
  rw [encrypt_of_nonneg h, decrypt_of_nonneg h, encrypt_of_nonneg le_rfl, ← length_zeros,
    encryptFrom_append_drop_iff]
  rfl

/-- What has been encrypted is decrypted to what it was, and it is longer by the bytes in front. The
other way round, a string that is decrypted and encrypted again comes back if no bytes are put in
front of it, and otherwise exactly if it has that many bytes and these are the encryption of
zeros. -/
theorem encrypt_decrypt_inverse (code : List UInt8) (lenIv : ℤ) :
    decrypt (encrypt code lenIv) lenIv = code ∧
      (encrypt code lenIv).length = code.length + lenIv.toNat ∧
      (encrypt (decrypt code lenIv) lenIv = code ↔
        lenIv ≤ 0 ∨ lenIv ≤ code.length ∧ code.take lenIv.toNat = encrypt (zeros lenIv) 0) := by
  refine ⟨decrypt_encrypt code lenIv, length_encrypt code lenIv, ?_⟩
  rcases lt_or_ge lenIv 0 with hneg | hnonneg
  · rw [encrypt_of_neg hneg, decrypt_of_neg hneg]
    exact iff_of_true rfl (.inl hneg.le)
  · rw [encrypt_decrypt_iff hnonneg]
    constructor
    · intro h
      have hlength := congrArg List.length h
      simp only [List.length_take, length_encrypt, length_zeros] at hlength
      exact .inr ⟨by omega, h⟩
    · rintro (hnone | ⟨-, h⟩)
      · obtain rfl : lenIv = 0 := le_antisymm hnone hnonneg
        rfl
      · exact h

/-- The byte that is dropped here is not that of a zero. -/
example : decrypt [0] 1 = [] ∧ encrypt [] 1 = [16] := by decide

end Letterform.Charstring.Cipher
