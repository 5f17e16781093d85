import Letterform.Proofs.Number.Gridded

/-!
# Closeness goes both ways

A rounded difference changes its sign only when its operands change places: the magnitude is
rounded by itself. The tolerance of charstring coordinates therefore does not depend on the order
in which two doubles are compared, however far they are from the grid.
-/

namespace Letterform.Double

open Float.Model (Format UnpackedFloat)
open Float.Model.UnpackedFloat

-- ---------------------------------------------------------------------------
-- The sign is kept apart from the magnitude
-- ---------------------------------------------------------------------------

theorem roundWithAccuracy_neg (s : Sign) (m : ℕ) (e : ℤ) (accuracy : Accuracy) :
    roundWithAccuracy .binary64 (-s) m e accuracy =
      (roundWithAccuracy .binary64 s m e accuracy).neg := by
  unfold roundWithAccuracy
  dsimp only
  split_ifs <;> rfl

theorem round_neg (s : Sign) (m : ℕ) (e : ℤ) :
    UnpackedFloat.round .binary64 (-s) m e = (UnpackedFloat.round .binary64 s m e).neg :=
  roundWithAccuracy_neg s _ _ _

theorem stored_neg (u : UnpackedFloat) : stored u.neg = (stored u).neg := by
  rcases u with s | _ | s | ⟨s, m, e, hm⟩
  · exact (unpack_pack_infinity (-s)).trans
      (congrArg UnpackedFloat.neg (unpack_pack_infinity s)).symm
  · exact unpack_pack_notANumber.trans (congrArg UnpackedFloat.neg unpack_pack_notANumber).symm
  · exact (unpack_pack_zero (-s)).trans (congrArg UnpackedFloat.neg (unpack_pack_zero s)).symm
  · simp only [UnpackedFloat.neg, stored, pack]
    split_ifs
    · exact (unpack_pack_infinity (-s)).trans
        (congrArg UnpackedFloat.neg (unpack_pack_infinity s)).symm
    · rw [unpack_packComponents, unpack_packComponents]
      split_ifs <;> rfl
    · rw [unpack_packComponents, unpack_packComponents]
      split_ifs <;> rfl

theorem holds_neg {u : UnpackedFloat} {q : ℚ} (h : Holds u q) : Holds u.neg (-q) := by
  obtain ⟨hfinite, rfl⟩ := h
  rcases u with s | _ | s | ⟨s, m, e, hm⟩
  · cases hfinite
  · cases hfinite
  · exact ⟨rfl, by simp [UnpackedFloat.neg, value]⟩
  · refine ⟨rfl, ?_⟩
    simp only [UnpackedFloat.neg, value]
    rw [apply_neg, Int.cast_neg, neg_mul]

theorem normalize_neg {n : ℤ} (hn : n ≠ 0) (e : ℤ) (s : Sign) :
    UnpackedFloat.normalize .binary64 (-n) e s = (UnpackedFloat.normalize .binary64 n e s).neg := by
  unfold UnpackedFloat.normalize
  rcases hn.lt_or_gt with hlt | hgt
  · rw [Int.compare_eq_lt.mpr hlt, Int.compare_eq_gt.mpr (Int.neg_pos.mpr hlt)]
    exact round_neg .negative _ e
  · rw [Int.compare_eq_gt.mpr hgt, Int.compare_eq_lt.mpr (Int.neg_neg_of_pos hgt), neg_neg]
    exact round_neg .positive _ e

-- ---------------------------------------------------------------------------
-- Differences
-- ---------------------------------------------------------------------------

theorem standsFor_sub_swap {x y : Float} {r : ℚ} (h : StandsFor (x - y) r) :
    StandsFor (y - x) (-r) := by
  obtain ⟨⟨p, hp⟩, q, hq⟩ := finite_of_sub h
  by_cases hexact : Representable (p - q)
  · have hswap := standsFor_sub hq hp (neg_sub p q ▸ representable_neg hexact)
    rwa [h.unique (standsFor_sub hp hq hexact), neg_sub]
  -- A difference that is rounded is one of two numbers that are not zero.
  have hne {k e : ℤ} (heq : p - q = k * 2 ^ e) : k ≠ 0 := by
    rintro rfl
    refine hexact (heq ▸ ?_)
    simpa using representable_intCast (n := 0) (by norm_num)
  rw [StandsFor, unpacked_sub] at h ⊢
  rcases hp.cases with ⟨s, hu, rfl⟩ | ⟨s, m, e, hm, hu, hc, he, rfl⟩ <;>
    rcases hq.cases with ⟨s', hv, rfl⟩ | ⟨s', m', e', hm', hv, hc', he', rfl⟩
  · rw [sub_zero] at hexact
    exact absurd (representable_of_standsFor hp) hexact
  · rw [zero_sub] at hexact
    exact absurd (representable_neg (representable_of_standsFor hq)) hexact
  · rw [sub_zero] at hexact
    exact absurd (representable_of_standsFor hp) hexact
  · rw [hu, hv] at h
    rw [hu, hv]
    simp only [UnpackedFloat.sub] at h ⊢
    rw [← decreaseExponent_value s m (min_le_left e e'),
      ← decreaseExponent_value s' m' (min_le_right e e'), ← sub_mul, ← Int.cast_sub] at hne
    rw [min_comm e' e, ← neg_sub (s.apply _), normalize_neg (hne rfl), stored_neg]
    exact holds_neg h

theorem isClose_comm (x y : Float) : Scalar.isClose x y = Scalar.isClose y x := by
  suffices h : ∀ x y : Float, Scalar.isClose x y = true → Scalar.isClose y x = true from
    Bool.eq_iff_iff.mpr ⟨h x y, h y x⟩
  intro x y h
  have hlt : Scalar.abs (x - y) < 1 / 2 / 1024 := of_decide_eq_true h
  have htolerance : StandsFor (1 / 2 / 1024 : Float) (1 / 2048) :=
    Scalar.denotes_tolerance (α := Float)
  obtain ⟨r, hr⟩ := finite_of_abs_lt htolerance hlt
  have hswap := standsFor_abs (standsFor_sub_swap hr)
  rw [abs_neg] at hswap
  exact decide_eq_true ((lt_iff hswap htolerance).mpr
    ((lt_iff (standsFor_abs hr) htolerance).mp hlt))

theorem isClose_of_beq {x y : Float} {q : ℚ} (hy : StandsFor y q) (h : (x == y) = true) :
    Scalar.isClose x y = true := by
  have hx := standsFor_of_beq h hy
  have hzero : Representable (q - q) := by
    rw [sub_self]
    simpa using representable_intCast (n := 0) (by norm_num)
  have hsub := standsFor_abs (standsFor_sub hx hy hzero)
  rw [sub_self, abs_zero] at hsub
  exact decide_eq_true ((lt_iff hsub (Scalar.denotes_tolerance (α := Float))).mpr (by norm_num))

theorem isClose_self {x y : Float} (h : Scalar.isClose x y = true) :
    Scalar.isClose x x = true := by
  have hlt : Scalar.abs (x - y) < 1 / 2 / 1024 := of_decide_eq_true h
  obtain ⟨r, hr⟩ := finite_of_abs_lt (Scalar.denotes_tolerance (α := Float)) hlt
  obtain ⟨⟨p, hp⟩, -⟩ := finite_of_sub hr
  exact isClose_of_beq hp ((beq_iff hp hp).mpr rfl)

end Letterform.Double
