import Letterform.Outline.Glyph
import Letterform.Outline.Builder
import Mathlib

/-!
# Outlines of one order

A builder that marks lines with some order, and is given no curves but those of that order, draws a
figure in which every segment has it.
-/

namespace Letterform

variable {α : Type} [Scalar α] {order : CurveOrder}

def Figure.HasOrder (order : CurveOrder) (f : Figure α) : Prop := ∀ s ∈ f.segments, s.order = order

namespace Figure.HasOrder

variable {f : Figure α}

theorem connect (h : f.HasOrder order) (start stop : ℕ) :
    (f.connect start stop order).HasOrder order := by
  intro s hs
  rcases Array.mem_push.mp hs with hs | rfl
  · exact h s hs
  · rfl

omit [Scalar α] in
theorem joinLast (h : f.HasOrder order) (first : ℕ) (removed : Knot α) (segment : ℕ) :
    (Builder.joinLast f first removed segment).HasOrder order := by
  intro s hs
  change s ∈ f.segments.modify segment ({ · with stop := first }) at hs
  obtain ⟨i, hi, rfl⟩ := Array.mem_iff_getElem.mp hs
  have hsize : i < f.segments.size := by rwa [Array.size_modify] at hi
  have hold := h f.segments[i] (Array.getElem_mem hsize)
  rw [Array.getElem_modify]
  split_ifs
  · exact hold
  · exact hold

omit [Scalar α] in
theorem hasCurves (h : f.HasOrder order) {other : CurveOrder} (hne : order ≠ other) :
    f.hasCurves other = false := by
  rw [Figure.hasCurves, Array.any_eq_false]
  intro i hi
  rw [h _ (Array.getElem_mem hi)]
  simp [hne]

end Figure.HasOrder

structure Builder.HasOrder (order : CurveOrder) (b : Builder α) : Prop where
  lines : b.order = order
  figure : b.figure.HasOrder order

namespace Builder.HasOrder

variable {b : Builder α}

omit [Scalar α] in
theorem empty (order : CurveOrder) : ({ order } : Builder α).HasOrder order :=
  ⟨rfl, fun s hs => absurd hs (Array.not_mem_empty s)⟩

omit [Scalar α] in
theorem modifyCurrent (h : b.HasOrder order) (change : Knot α → Knot α) :
    (b.modifyCurrent change).HasOrder order := by
  unfold Builder.modifyCurrent
  split
  · exact ⟨h.lines, h.figure⟩
  · exact h

theorem endContour (h : b.HasOrder order) (close : Bool) :
    (b.endContour close).HasOrder order := by
  rcases hpath : b.path with _ | ⟨first, last⟩
  · rw [Builder.endContour, hpath]
    exact h
  · rw [Builder.endContour, hpath]
    refine ⟨h.lines, ?_⟩
    dsimp only
    split_ifs
    · exact h.figure
    · split
      · exact h.figure.joinLast first (b.figure.knot last) _
      · exact h.figure
    · rw [h.lines]
      exact Figure.HasOrder.connect (f := ((b.figure.modifyKnot last _).modifyKnot first _))
        h.figure last first
    · exact h.figure

theorem moveTo (h : b.HasOrder order) (p : Point α) : (b.moveTo p).HasOrder order := by
  have hend := h.endContour false
  exact ⟨hend.lines, hend.figure⟩

theorem start (h : b.HasOrder order) (p : Point α) : (b.start p).HasOrder order := by
  unfold Builder.start
  split
  · exact h
  · exact h.moveTo p

theorem extend (h : b.HasOrder order) (k : Knot α) : (b.extend k order).HasOrder order := by
  unfold Builder.extend
  split
  · exact h
  · exact ⟨h.lines, Figure.HasOrder.connect (f := b.figure.addKnot k) h.figure _ _⟩

theorem lineTo (h : b.HasOrder order) (p : Point α) : (b.lineTo p).HasOrder order := by
  have hstart := h.start p
  have hextend := hstart.extend { anchor := p }
  rwa [← hstart.lines] at hextend ⊢

theorem quadTo (h : b.HasOrder .quadratic) (c p : Point α) : (b.quadTo c p).HasOrder .quadratic :=
  ((h.start c).modifyCurrent _).extend _

theorem curveTo (h : b.HasOrder .cubic) (c1 c2 p : Point α) :
    (b.curveTo c1 c2 p).HasOrder .cubic :=
  ((h.start c1).modifyCurrent _).extend _

end Builder.HasOrder

end Letterform
