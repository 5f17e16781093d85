import Letterform.Number.Double
import Mathlib

/-!
# Packed and unpacked doubles

A double that is a number has one unpacked form, in which the mantissa is as long as the format
allows. Packing keeps this form, and two numbers in this form compare as their values do.
-/

namespace Letterform.Double

open Float.Model (Format UnpackedFloat)
open Float.Model.UnpackedFloat

/-- The number that an unpacked double stands for; zero if it stands for none. -/
def value : UnpackedFloat → ℚ
  | .finite s m e _ => s.apply m * 2 ^ e
  | _ => 0

/-- The mantissa and exponent of a double: 53 bits, fewer only at the lowest exponent. -/
structure IsCanonical (m : ℕ) (e : ℤ) : Prop where
  lt : m < 2 ^ 53
  le : -1074 ≤ e
  full : 2 ^ 52 ≤ m ∨ e = -1074

inductive IsUnpacked : UnpackedFloat → Prop
  | notANumber : IsUnpacked .notANumber
  | infinity (s : Sign) : IsUnpacked (.infinity s)
  | zero (s : Sign) : IsUnpacked (.zero s)
  | finite (s : Sign) (m : ℕ) (e : ℤ) (h : 0 < m) (hc : IsCanonical m e) (he : e ≤ 971) :
      IsUnpacked (.finite s m e h)

-- ---------------------------------------------------------------------------
-- Fields of a packed double
-- ---------------------------------------------------------------------------

theorem targetExponent_eq (te : ℤ) : Format.binary64.targetExponent te = max (te - 53) (-1074) := by
  simp [Format.targetExponent, Format.minExponent, Format.mantissaBits]

theorem unpackSign_packComponents {spec : Format} (s : Sign) (e : BitVec spec.exponentBits)
    (m : BitVec spec.mantissaBitsWithoutImplicit) :
    unpackSign (packComponents spec s e m) = s.toBitVec := by
  ext i hi
  have h0 : i = 0 := by omega
  subst h0
  simp [unpackSign, packComponents, BitVec.getLsbD_append, BitVec.getElem_append]

theorem ofBitVec_toBitVec (s : Sign) : Sign.ofBitVec s.toBitVec = s := by
  cases s <;> rfl

theorem toNat_implicit {w : ℕ} (m : BitVec w) : (1#1 ++ m).toNat = 2 ^ w + m.toNat := by
  rw [BitVec.toNat_append, ← Nat.shiftLeft_add_eq_or_of_lt m.isLt]
  simp [Nat.shiftLeft_eq]

theorem unpack_packComponents {spec : Format} (s : Sign) (e : BitVec spec.exponentBits)
    (m : BitVec spec.mantissaBitsWithoutImplicit) :
    unpack spec (packComponents spec s e m) =
      if e = -1#_ then if m = 0#_ then .infinity s else .notANumber
      else if e = 0#_ then
        if h : m = 0#_ then .zero s
        else .finite s m.toNat (1 - (spec.exponentBias + spec.mantissaBitsWithoutImplicit))
          (by simpa [BitVec.toNat_pos, BitVec.pos_iff_ne_zero] using h)
      else .finite s (2 ^ spec.mantissaBitsWithoutImplicit + m.toNat)
        (e.toNat - (spec.exponentBias + spec.mantissaBitsWithoutImplicit)) (by positivity) := by
  simp only [unpack, unpackMantissa_packComponents, unpackExponent_packComponents,
    unpackSign_packComponents, ofBitVec_toBitVec, toNat_implicit]
  split_ifs with h1 h2 h3 h4
  · rfl
  · rfl
  · rfl
  · rw [h3]
    congr 1
    simp
    ring
  · rfl

theorem isUnpacked_unpack (b : BitVec 64) : IsUnpacked (unpack .binary64 b) := by
  have hbias : (Format.binary64.exponentBias : ℤ) = 1023 := rfl
  have hfull : (1#1 ++ @unpackMantissa .binary64 b).toNat =
      2 ^ 52 + (@unpackMantissa .binary64 b).toNat := toNat_implicit _
  have hE : (@unpackExponent .binary64 b).toNat < 2 ^ 11 := BitVec.isLt _
  have hM : (@unpackMantissa .binary64 b).toNat < 2 ^ 52 := BitVec.isLt _
  unfold unpack
  simp only [hbias]
  split_ifs with h1 h2 h3 h4
  · exact .infinity _
  · exact .notANumber
  · exact .zero _
  · refine .finite _ _ _ _ ⟨by omega, ?_, .inr ?_⟩ ?_ <;> simp [h3]
  · have hpos : (@unpackExponent .binary64 b).toNat ≠ 0 := fun h =>
      h3 (BitVec.eq_of_toNat_eq (by simpa using h))
    have htop : (@unpackExponent .binary64 b).toNat ≠ 2047 := fun h =>
      h1 (BitVec.eq_of_toNat_eq (by simpa using h))
    refine .finite _ _ _ _ ⟨?_, ?_, .inl ?_⟩ ?_
    · rw [hfull]; omega
    · push_cast; omega
    · rw [hfull]; omega
    · push_cast; omega

-- ---------------------------------------------------------------------------
-- Packing
-- ---------------------------------------------------------------------------

theorem IsCanonical.log2 {m : ℕ} {e : ℤ} (hc : IsCanonical m e) (hm : 0 < m) :
    m.log2 + 1 = 53 ∧ 2 ^ 52 ≤ m ∨ m.log2 + 1 < 53 ∧ m < 2 ^ 52 ∧ e = -1074 := by
  have hlt : m.log2 < 53 := (Nat.log2_lt hm.ne').mpr hc.lt
  by_cases h : 2 ^ 52 ≤ m
  · have := (Nat.le_log2 hm.ne').mpr h
    exact .inl ⟨by omega, h⟩
  · have := (Nat.log2_lt hm.ne').mpr (Nat.lt_of_not_le h)
    exact .inr ⟨by omega, by omega, hc.full.resolve_left h⟩

theorem unpack_pack_normal {spec : Format} (s : Sign) {m : ℕ} {e : ℤ} (h : 0 < m)
    (hlog : m.log2 = spec.mantissaBitsWithoutImplicit)
    (hlow : 0 < e + spec.exponentBias + spec.mantissaBitsWithoutImplicit)
    (hhigh : e + spec.exponentBias + spec.mantissaBitsWithoutImplicit + 1 < 2 ^ spec.exponentBits) :
    unpack spec (pack spec (.finite s m e h)) = .finite s m e h := by
  obtain ⟨b, hb⟩ : ∃ b : ℕ, e + spec.exponentBias + spec.mantissaBitsWithoutImplicit = b :=
    ⟨_, (Int.toNat_of_nonneg hlow.le).symm⟩
  have hfit : b + 1 < 2 ^ spec.exponentBits := by
    rw [hb] at hhigh
    exact_mod_cast hhigh
  have hpos : 0 < b := by omega
  have hB : (BitVec.ofNat spec.exponentBits b).toNat = b := by
    rw [BitVec.toNat_ofNat, Nat.mod_eq_of_lt (by omega)]
  have hM : (BitVec.ofNat spec.mantissaBitsWithoutImplicit m).toNat =
      m - 2 ^ spec.mantissaBitsWithoutImplicit := by
    have hfull := Nat.log2_self_le h.ne'
    have hlt := Nat.lt_log2_self (n := m)
    rw [hlog] at hfull hlt
    rw [pow_succ] at hlt
    rw [BitVec.toNat_ofNat, Nat.mod_eq_sub_mod hfull, Nat.mod_eq_of_lt (by omega)]
  have hbits : spec.mantissaBits = spec.mantissaBitsWithoutImplicit + 1 := Nat.add_comm _ _
  simp only [pack, hb, Int.toNat_natCast, hlog, hbits]
  rw [if_neg (by omega), if_pos trivial, unpack_packComponents, if_neg, if_neg, hB, hM]
  · congr 1
    · have := Nat.log2_self_le h.ne'
      rw [hlog] at this
      omega
    · omega
  · intro hzero
    have := congrArg BitVec.toNat hzero
    rw [hB] at this
    simp at this
    omega
  · intro hones
    have := congrArg BitVec.toNat hones
    rw [hB, BitVec.neg_one_eq_allOnes, BitVec.toNat_allOnes] at this
    omega

theorem unpack_pack_finite (s : Sign) {m : ℕ} {e : ℤ} (h : 0 < m) (hc : IsCanonical m e)
    (he : e ≤ 971) :
    unpack .binary64 (pack .binary64 (.finite s m e h)) = .finite s m e h := by
  have hbias : (Format.binary64.exponentBias : ℤ) = 1023 := rfl
  have hbits : Format.binary64.mantissaBits = 53 := rfl
  have hle := hc.le
  rcases hc.log2 h with ⟨hlog, hfull⟩ | ⟨hlog, hlow, rfl⟩
  · refine unpack_pack_normal s h (Nat.succ.inj hlog) ?_ ?_
    · rw [hbias]
      push_cast
      omega
    · rw [hbias]
      push_cast
      omega
  · have hM : (BitVec.ofNat 52 m).toNat = m := by
      rw [BitVec.toNat_ofNat, Nat.mod_eq_of_lt (by omega)]
    have hne : BitVec.ofNat 52 m ≠ 0#52 := fun h => by
      have := congrArg BitVec.toNat h
      rw [hM] at this
      simp at this
      omega
    have hexp : ((-1074 : ℤ) + Format.binary64.exponentBias + ((52 : ℕ) : ℤ)).toNat = 1 := rfl
    simp only [pack, hbits, hexp]
    rw [if_neg (by norm_num), if_neg (by omega), unpack_packComponents]
    simp [hne, hM]
    rfl

@[simp] theorem unpack_pack_zero (s : Sign) :
    unpack .binary64 (pack .binary64 (.zero s)) = .zero s := by
  simp [pack, packedZero, unpack_packComponents]

@[simp] theorem unpack_pack_infinity (s : Sign) :
    unpack .binary64 (pack .binary64 (.infinity s)) = .infinity s := by
  simp [pack, packedInfinity, unpack_packComponents]

@[simp] theorem unpack_pack_notANumber :
    unpack .binary64 (pack .binary64 .notANumber) = .notANumber := by
  simp [pack, packedNaN, unpack_packComponents]

theorem unpack_pack {u : UnpackedFloat} (hu : IsUnpacked u) :
    unpack .binary64 (pack .binary64 u) = u := by
  cases hu with
  | notANumber => simp
  | infinity s => simp
  | zero s => simp
  | finite s m e h hc he => exact unpack_pack_finite s h hc he

end Letterform.Double
