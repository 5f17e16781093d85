import Letterform.Component.Basic
import Letterform.Proofs.Number.Lawful

/-!
# Components that are equal

Components are compared field by field, with transforms compared as numbers.
-/

namespace Letterform

open LawfulScalar (Denotes)

variable {α : Type} [Scalar α]

theorem Affine.beq_iff {t u : Affine α} : (t == u) = true ↔
    (t.xx == u.xx) = true ∧ (t.yx == u.yx) = true ∧ (t.xy == u.xy) = true ∧
      (t.yy == u.yy) = true ∧ (t.dx == u.dx) = true ∧ (t.dy == u.dy) = true := by
  obtain ⟨xx, yx, xy, yy, dx, dy⟩ := t
  obtain ⟨xx', yx', xy', yy', dx', dy'⟩ := u
  show instBEqAffine.beq _ _ = true ↔ _
  simp only [instBEqAffine.beq, Bool.and_eq_true]

theorem Component.beq_iff {c c' : Component α} : (c == c') = true ↔
    c.target = c'.target ∧ (c.transform == c'.transform) = true ∧
      c.pointMatch = c'.pointMatch ∧ c.flags = c'.flags := by
  obtain ⟨target, transform, pointMatch, flags⟩ := c
  obtain ⟨target', transform', pointMatch', flags'⟩ := c'
  show instBEqComponent.beq _ _ = true ↔ _
  simp only [instBEqComponent.beq, Bool.and_eq_true, beq_iff_eq]

theorem Scalar.beq_of_denotes [LawfulScalar α] {a b c : α} {q : ℚ} (h : (a == b) = true)
    (hb : Denotes b q) (hc : Denotes c q) : (c == a) = true :=
  (LawfulScalar.beq_iff hc (LawfulScalar.denotes_of_beq h hb)).mpr rfl

theorem Component.beq_ofCode [LawfulScalar α] {c : Component α} {code : UInt8} {dx dy dx' dy' : α}
    {p q : ℚ} (h : (c == .ofCode code dx dy) = true) (hdx : Denotes dx p) (hdx' : Denotes dx' p)
    (hdy : Denotes dy q) (hdy' : Denotes dy' q) : (Component.ofCode code dx' dy' == c) = true := by
  have hone : Denotes (1 : α) ((1 : ℤ) : ℚ) := LawfulScalar.ofInt (by norm_num)
  have hzero : Denotes (0 : α) ((0 : ℤ) : ℚ) := LawfulScalar.ofInt (by norm_num)
  obtain ⟨htarget, htransform, hmatch, hflags⟩ := beq_iff.mp h
  obtain ⟨hxx, hyx, hxy, hyy, hx, hy⟩ := Affine.beq_iff.mp htransform
  exact beq_iff.mpr ⟨htarget.symm, Affine.beq_iff.mpr ⟨Scalar.beq_of_denotes hxx hone hone,
    Scalar.beq_of_denotes hyx hzero hzero, Scalar.beq_of_denotes hxy hzero hzero,
    Scalar.beq_of_denotes hyy hone hone, Scalar.beq_of_denotes hx hdx hdx',
    Scalar.beq_of_denotes hy hdy hdy'⟩, hmatch.symm, hflags.symm⟩

end Letterform
