import Letterform.Charstring.Arithmetic
import Letterform.Proofs.Number.Quotient
import Letterform.Proofs.Number.Whole

/-!
# The generator never comes to zero

A state is combined with itself shifted three times over. A shift leaves no state but zero as it is,
so no two states have the same successor, and only zero comes after zero. Every other state stands
for a number above 0, up to 1.
-/

namespace Letterform.Charstring.Generator

open Letterform.Double

-- ---------------------------------------------------------------------------
-- States
-- ---------------------------------------------------------------------------

variable {d n : UInt32}

theorem eq_zero_of_shiftLeft (hn : n.toNat % 32 ≠ 0) (h : d = d <<< n) : d = 0 := by
  have hmod : d.toNat ≡ d.toNat * 2 ^ (n.toNat % 32) [MOD 2 ^ 32] := by
    have := congrArg UInt32.toNat h
    rw [UInt32.toNat_shiftLeft, Nat.shiftLeft_eq] at this
    rw [Nat.ModEq, ← this, Nat.mod_eq_of_lt d.toNat_lt]
  have hdvd : 2 ^ 32 ∣ d.toNat * (2 ^ (n.toNat % 32) - 1) := by
    rw [Nat.mul_sub_one]
    exact (Nat.modEq_iff_dvd' (Nat.le_mul_of_pos_right _ (Nat.two_pow_pos _))).mp hmod
  have hodd : Odd (2 ^ (n.toNat % 32) - 1) :=
    Nat.Even.sub_odd (Nat.one_le_two_pow) (even_two.pow_of_ne_zero hn) odd_one
  have hcoprime : Nat.Coprime (2 ^ 32) (2 ^ (n.toNat % 32) - 1) :=
    (Nat.coprime_two_left.mpr hodd).pow_left 32
  rw [← UInt32.toNat_inj]
  exact Nat.eq_zero_of_dvd_of_lt (hcoprime.dvd_of_dvd_mul_right hdvd) d.toNat_lt

theorem eq_zero_of_shiftRight (hn : n.toNat % 32 ≠ 0) (h : d = d >>> n) : d = 0 := by
  have hdiv := congrArg UInt32.toNat h
  rw [UInt32.toNat_shiftRight, Nat.shiftRight_eq_div_pow] at hdiv
  rw [← UInt32.toNat_inj]
  by_contra! hd
  exact (Nat.div_lt_self (Nat.pos_of_ne_zero hd) (Nat.one_lt_two_pow hn)).ne' hdiv

theorem xor_injective (shift : UInt32 → UInt32)
    (hxor : ∀ a b, shift (a ^^^ b) = shift a ^^^ shift b) (hfixed : ∀ d, d = shift d → d = 0) :
    Function.Injective fun a => a ^^^ shift a := by
  intro a b h
  have hdifference : a ^^^ b = shift (a ^^^ b) := by
    rw [hxor]
    rw [← UInt32.xor_eq_zero_iff] at h ⊢
    refine Eq.trans ?_ h
    dsimp only
    ac_rfl
  exact UInt32.xor_eq_zero_iff.mp (hfixed _ hdifference)

theorem next_injective : Function.Injective next := by
  have h13 := xor_injective (· <<< 13) (fun _ _ => UInt32.shiftLeft_xor)
    fun _ => eq_zero_of_shiftLeft (by decide)
  have h17 := xor_injective (· >>> 17) (fun _ _ => UInt32.shiftRight_xor)
    fun _ => eq_zero_of_shiftRight (by decide)
  have h5 := xor_injective (· <<< 5) (fun _ _ => UInt32.shiftLeft_xor)
    fun _ => eq_zero_of_shiftLeft (by decide)
  exact h5.comp (h17.comp h13)

theorem next_zero : next 0 = 0 := rfl

theorem iterate_next_ne_zero (k : ℕ) : next^[k] seed ≠ 0 := by
  have hzero : next^[k] 0 = 0 := Function.iterate_fixed next_zero k
  have hseed : seed ≠ 0 := by decide
  exact hzero ▸ (next_injective.iterate k).ne hseed

-- ---------------------------------------------------------------------------
-- Numbers
-- ---------------------------------------------------------------------------

theorem toNat_pos (h : d ≠ 0) : 0 < d.toNat := by
  refine Nat.pos_of_ne_zero fun hzero => h ?_
  rwa [← UInt32.toNat_inj]

/-- The quotient is rounded, but not to 0 and not above 1. -/
theorem exists_standsFor_value (h : d ≠ 0) :
    ∃ r, StandsFor (value d : Float) r ∧ 0 < r ∧ r ≤ 1 := by
  have hlt := d.toNat_lt
  have hstate : StandsFor (Scalar.ofInt d.toNat : Float) ((d.toNat : ℤ) : ℚ) :=
    standsFor_ofInt (by rw [abs_lt]; omega)
  have hgreatest : StandsFor (Scalar.ofInt 0xffffffff : Float) ((0xffffffff : ℤ) : ℚ) :=
    standsFor_ofInt (by norm_num)
  have hlow : (1 : ℚ) ≤ (d.toNat : ℤ) := by exact_mod_cast toNat_pos h
  have hhigh : ((d.toNat : ℤ) : ℚ) ≤ (0xffffffff : ℤ) := by
    exact_mod_cast Nat.le_of_lt_succ hlt
  obtain ⟨r, hr, habove, hbelow⟩ := standsFor_div_between (n := -32) (k := 0) hstate hgreatest
    (by linarith) (by norm_num) (by norm_num) (by norm_num)
    (by rw [le_div_iff₀ (by norm_num)]; refine le_trans ?_ hlow; norm_num)
    (by rw [div_le_iff₀ (by norm_num), zpow_zero, one_mul]; exact hhigh)
  exact ⟨r, hr, (two_zpow_pos _).trans_le habove, hbelow⟩

theorem value_mem (h : d ≠ 0) : (0 : Float) < value d ∧ (value d : Float) ≤ 1 := by
  obtain ⟨r, hr, hpos, hle⟩ := exists_standsFor_value h
  exact ⟨(lt_iff (standsFor_of_zero rfl) hr).mpr hpos, (le_iff hr standsFor_one).mpr hle⟩

end Letterform.Charstring.Generator
