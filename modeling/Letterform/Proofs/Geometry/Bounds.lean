import Letterform.Outline.Glyph
import Letterform.Proofs.Geometry.Around
import Letterform.Proofs.Number.Order

/-!
# Boxes around any points

The box around points in doubles reaches from the least to the greatest of their coordinates.
Coordinates that are not numbers count only where there are no others.
-/

namespace Letterform

/-- All anchors and control points of the glyph's own figures. -/
def Glyph.points {α : Type} [Scalar α] (g : Glyph α) : List (Point α) :=
  g.figures.flatMap Figure.points

/-- The least and the greatest of some doubles: both are among them, and all of them that are
numbers lie in between. Where there are none, both are zero. -/
structure IsRange (xs : List Float) (low high : Float) : Prop where
  least : low ∈ xs ∨ xs = [] ∧ low = 0
  greatest : high ∈ xs ∨ xs = [] ∧ high = 0
  between : ∀ x ∈ xs, (x == x) = true → low ≤ x ∧ x ≤ high

theorem isRange_foldl (x : Float) (xs : List Float) :
    IsRange (x :: xs) (xs.foldl Scalar.least x) (xs.foldl Scalar.greatest x) := by
  obtain ⟨hlow, hleast⟩ := Double.picks_least.foldl x xs
  obtain ⟨hhigh, hgreatest⟩ := Double.picks_greatest.foldl x xs
  exact ⟨.inl hlow, .inl hhigh, fun y hy hnumber => ⟨hleast y hy hnumber, hgreatest y hy hnumber⟩⟩

theorem IsRange.eq {xs : List Float} {low high low' high' : Float} (h : IsRange xs low high)
    (hunique : xs ≠ [] ∧ ∀ x ∈ xs, (x == x) = true ∧ ((∀ y ∈ xs, x ≤ y) → x = low') ∧
      ((∀ y ∈ xs, y ≤ x) → x = high')) : low = low' ∧ high = high' := by
  obtain ⟨hne, hunique⟩ := hunique
  have hlow := h.least.resolve_right fun hnone => hne hnone.1
  have hhigh := h.greatest.resolve_right fun hnone => hne hnone.1
  exact ⟨(hunique low hlow).2.1 fun y hy => (h.between y hy (hunique y hy).1).1,
    (hunique high hhigh).2.2 fun y hy => (h.between y hy (hunique y hy).1).2⟩

namespace Rect

/-- The box that is computed around points reaches from the least to the greatest coordinates. -/
theorem isRange_around (points : List (Point Float)) :
    IsRange (points.map (·.x)) (around points).x0 (around points).x1 ∧
      IsRange (points.map (·.y)) (around points).y0 (around points).y1 := by
  cases points with
  | nil => exact ⟨⟨.inr ⟨rfl, rfl⟩, .inr ⟨rfl, rfl⟩, nofun⟩, .inr ⟨rfl, rfl⟩, .inr ⟨rfl, rfl⟩, nofun⟩
  | cons p points =>
    rw [around, foldl_cover]
    exact ⟨isRange_foldl _ _, isRange_foldl _ _⟩

end Rect

end Letterform
