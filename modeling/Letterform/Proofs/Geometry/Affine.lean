import Letterform.Outline.Figure
import Letterform.Proofs.Number.Exact

/-!
# Affine maps, exactly

Without rounding, a composition of maps moves points as the maps do one after another, and the
point halfway between two others stays halfway between them.
-/

namespace Letterform

open ExactScalar

variable {α : Type} [Scalar α] [ExactScalar α]

namespace Point

theorem ext_value {p q : Point α} (hx : value p.x = value q.x) (hy : value p.y = value q.y) :
    p = q := by
  cases p
  cases q
  rw [mk.injEq]
  exact ⟨value_injective hx, value_injective hy⟩

theorem isClose_self (p : Point α) : p.isClose p = true := by
  simp [isClose, ExactScalar.isClose_self]

end Point

namespace Affine

theorem apply_identity : (identity : Affine α).apply = id := by
  funext p
  refine Point.ext_value ?_ ?_ <;> simp [identity, apply]

theorem apply_comp (t u : Affine α) : (t.comp u).apply = t.apply ∘ u.apply := by
  funext p
  refine Point.ext_value ?_ ?_ <;> simp [comp, apply] <;> ring

theorem apply_midpoint (t : Affine α) (p q : Point α) :
    t.apply (p.midpoint q) = (t.apply p).midpoint (t.apply q) := by
  refine Point.ext_value ?_ ?_ <;> simp [Point.midpoint, apply] <;> ring

theorem withTranslation_apply (t : Affine α) (p q : Point α) :
    (t.withTranslation (q - t.linear.apply p).x (q - t.linear.apply p).y).apply p = q := by
  refine Point.ext_value ?_ ?_
  · show value (t.xx * p.x + t.xy * p.y + (q.x - (t.xx * p.x + t.xy * p.y + 0))) = value q.x
    simp
  · show value (t.yx * p.x + t.yy * p.y + (q.y - (t.yx * p.x + t.yy * p.y + 0))) = value q.y
    simp

end Affine

theorem Knot.map_identity (k : Knot α) : k.map Affine.identity.apply = k := by
  simp [map, Affine.apply_identity]

theorem Knot.map_comp (k : Knot α) (t u : Affine α) :
    k.map (t.comp u).apply = (k.map u.apply).map t.apply := by
  simp [map, Affine.apply_comp]

namespace Figure

theorem transform_identity (f : Figure α) : f.transform Affine.identity = f := by
  simp [transform, Knot.map_identity]

theorem transform_comp (f : Figure α) (t u : Affine α) :
    f.transform (t.comp u) = (f.transform u).transform t := by
  simp [transform, Knot.map_comp, Function.comp_def]

end Figure

end Letterform
