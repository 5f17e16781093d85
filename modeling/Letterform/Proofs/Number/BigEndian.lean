import Letterform.Number.BigEndian
import Mathlib

/-!
# Integers written as bytes are read back

Writing keeps the last bytes of an integer, so reading gives the integer back as long as it fits.
-/

namespace Letterform.BigEndian

@[simp] theorem length_encode (count : ℕ) (n : ℤ) : (encode count n).length = count := by
  simp [encode]

theorem encode_succ (count : ℕ) (n : ℤ) :
    encode (count + 1) n = UInt8.ofNat (n.shiftRight (8 * count) % 256).toNat :: encode count n := by
  simp [encode, List.range_succ]

theorem foldl_unsigned (bytes : List UInt8) (start : ℕ) :
    bytes.foldl (fun n b => n * 256 + b.toNat) start =
      start * 256 ^ bytes.length + unsigned bytes := by
  induction bytes generalizing start with
  | nil => simp [unsigned]
  | cons b bytes ih =>
    rw [unsigned, List.foldl_cons, ih, List.foldl_cons, ih, List.length_cons, pow_succ]
    ring

theorem unsigned_cons (b : UInt8) (bytes : List UInt8) :
    unsigned (b :: bytes) = b.toNat * 256 ^ bytes.length + unsigned bytes := by
  rw [unsigned, List.foldl_cons, foldl_unsigned, zero_mul, zero_add]

theorem unsigned_encode (count : ℕ) (n : ℤ) : (unsigned (encode count n) : ℤ) = n % 256 ^ count := by
  induction count with
  | zero => simp [encode, unsigned]
  | succ count ih =>
    have hbyte : ((UInt8.ofNat (n.shiftRight (8 * count) % 256).toNat).toNat : ℤ) =
        n / 256 ^ count % 256 := by
      have hshift : n.shiftRight (8 * count) = n / 256 ^ count := by
        rw [show n.shiftRight (8 * count) = n >>> (8 * count) from rfl, Int.shiftRight_eq_div_pow,
          pow_mul]
        norm_num
      rw [hshift, UInt8.toNat_ofNat']
      omega
    rw [encode_succ, unsigned_cons, length_encode, Nat.cast_add, ih, Nat.cast_mul, hbyte]
    push_cast
    have hpow : (0 : ℤ) < 256 ^ count := by positivity
    have h1 := Int.emod_add_mul_ediv n (256 ^ count)
    have h2 := Int.emod_add_mul_ediv (n / 256 ^ count) 256
    have h3 := Int.emod_add_mul_ediv n (256 ^ (count + 1))
    have hdiv : n / 256 ^ (count + 1) = n / 256 ^ count / 256 := by
      rw [pow_succ, Int.ediv_ediv_of_nonneg hpow.le]
    rw [hdiv, pow_succ] at h3
    rw [pow_succ]
    linear_combination h1 + 256 ^ count * h2 - h3

theorem signed_encode (count : ℕ) {n : ℤ} (hlow : -(256 ^ count) ≤ 2 * n)
    (hhigh : 2 * n < 256 ^ count) : signed (encode count n) = n := by
  have hsize : ((1 <<< (8 * count) : ℕ) : ℤ) = 256 ^ count := by
    rw [Nat.one_shiftLeft, pow_mul]
    norm_num
  rw [signed, unsigned_encode, length_encode, ← hsize, Int.emod_bmod]
  rw [← hsize] at hlow hhigh
  exact Int.bmod_eq_of_le_mul_two (by omega) (by omega)

theorem signed_mem (bytes : List UInt8) :
    -2 ^ (8 * bytes.length) ≤ 2 * signed bytes ∧ 2 * signed bytes < 2 ^ (8 * bytes.length) := by
  have hsize : ((1 <<< (8 * bytes.length) : ℕ) : ℤ) = 2 ^ (8 * bytes.length) := by
    rw [Nat.one_shiftLeft]
    norm_num
  have hpos : 0 < 1 <<< (8 * bytes.length) := by
    rw [Nat.one_shiftLeft]
    positivity
  have hlow := Int.le_bmod (x := (unsigned bytes : ℤ)) hpos
  have hhigh := Int.bmod_lt (x := (unsigned bytes : ℤ)) hpos
  rw [signed, ← hsize]
  omega

theorem unsigned_lt (bytes : List UInt8) : unsigned bytes < 256 ^ bytes.length := by
  induction bytes with
  | nil => simp [unsigned]
  | cons b bytes ih =>
    have hb := b.toNat_lt
    have hstep : (b.toNat + 1) * 256 ^ bytes.length ≤ 256 * 256 ^ bytes.length :=
      Nat.mul_le_mul_right _ (by omega)
    rw [unsigned_cons, List.length_cons, pow_succ]
    linarith

theorem unsigned_injective {bytes bytes' : List UInt8} (hlength : bytes.length = bytes'.length)
    (h : unsigned bytes = unsigned bytes') : bytes = bytes' := by
  induction bytes generalizing bytes' with
  | nil => exact (List.length_eq_zero_iff.mp hlength.symm).symm
  | cons b bytes ih =>
    obtain ⟨b', bytes', rfl⟩ : ∃ b' rest, bytes' = b' :: rest :=
      List.exists_of_length_succ bytes' hlength.symm
    have hrest : bytes.length = bytes'.length := Nat.succ.inj hlength
    rw [unsigned_cons, unsigned_cons, ← hrest] at h
    have hlt := unsigned_lt bytes
    have hlt' := unsigned_lt bytes'
    rw [← hrest] at hlt'
    have hpos : 0 < 256 ^ bytes.length := by positivity
    have hdiv := congrArg (· / 256 ^ bytes.length) h
    have hmod := congrArg (· % 256 ^ bytes.length) h
    simp only [Nat.mul_add_mod_of_lt hlt, Nat.mul_add_mod_of_lt hlt'] at hmod
    simp only [Nat.mul_comm _ (256 ^ bytes.length), Nat.mul_add_div hpos,
      Nat.div_eq_of_lt hlt, Nat.div_eq_of_lt hlt', Nat.add_zero] at hdiv
    rw [UInt8.toNat_inj.mp hdiv, ih hrest hmod]

theorem encode_unsigned (bytes : List UInt8) : encode bytes.length (unsigned bytes) = bytes := by
  refine unsigned_injective (length_encode _ _) ?_
  have h := unsigned_encode bytes.length (unsigned bytes)
  rw [Int.emod_eq_of_lt (by positivity) (by exact_mod_cast unsigned_lt bytes)] at h
  exact_mod_cast h

theorem encode_congr {count : ℕ} {m n : ℤ} (h : m % 256 ^ count = n % 256 ^ count) :
    encode count m = encode count n := by
  refine unsigned_injective (by rw [length_encode, length_encode]) ?_
  have hm := unsigned_encode count m
  have hn := unsigned_encode count n
  omega

theorem encode_signed (bytes : List UInt8) : encode bytes.length (signed bytes) = bytes := by
  have hsize : ((1 <<< (8 * bytes.length) : ℕ) : ℤ) = 256 ^ bytes.length := by
    rw [Nat.one_shiftLeft, pow_mul]
    norm_num
  have h : encode bytes.length (signed bytes) = encode bytes.length (unsigned bytes) :=
    encode_congr (by rw [signed, ← hsize, Int.bmod_emod])
  rw [h, encode_unsigned]

end Letterform.BigEndian
