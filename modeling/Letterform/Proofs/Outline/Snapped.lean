import Letterform.Outline.Builder
import Letterform.Outline.Glyph
import Letterform.Proofs.Outline.Strokes
import Mathlib

/-!
# Outlines drawn again

The figure that a pen draws when it is given the contours of a glyph with all coordinates rounded
to multiples of 1/1024, where masks are handed on as far as they are wanted. And the one that it
draws when it is given them as they are and closes each of them.
-/

namespace Letterform

variable {α : Type} [Scalar α]

-- ---------------------------------------------------------------------------
-- Points that are drawn
-- ---------------------------------------------------------------------------

omit [Scalar α] in
theorem Knot.anchor_mem_points (k : Knot α) : k.anchor ∈ k.points := List.mem_cons_self

omit [Scalar α] in
theorem Knot.arriving_mem_points (k : Knot α) : k.arriving ∈ k.points := by
  unfold arriving points
  cases k.controlIn with
  | none => exact List.mem_cons_self
  | some c => simp

omit [Scalar α] in
theorem Knot.leaving_mem_points (k : Knot α) : k.leaving ∈ k.points := by
  unfold leaving points
  cases k.controlOut with
  | none => exact List.mem_cons_self
  | some c => simp

theorem Figure.exists_knots {f : Figure α} {c : Contour} {s : Stroke α}
    (h : s ∈ f.drawnStrokes c) : ∃ i j, s.start = f.knot i ∧ s.stop = f.knot j := by
  rcases List.mem_append.mp h with h | h
  all_goals
    obtain ⟨name, -, rfl⟩ := List.mem_map.mp h
    exact ⟨_, _, rfl, rfl⟩

omit [Scalar α] in
theorem Glyph.mem_figures_of_mem_contours {g : Glyph α} {f : Figure α} {c : Contour}
    (h : (f, c) ∈ g.contours) : f ∈ g.figures := by
  obtain ⟨f', hf, hpair⟩ := List.mem_flatMap.mp h
  obtain ⟨_, -, heq⟩ := List.mem_map.mp hpair
  obtain ⟨rfl, -⟩ := Prod.mk.inj heq
  exact hf

/-- A knot of a figure, or the one at the origin that stands for knots which do not exist. -/
theorem Figure.knot_eq_or_mem (f : Figure α) (i : ℕ) : f.knot i = default ∨ f.knot i ∈ f.knots := by
  rw [knot, Array.getD_eq_getD_getElem?]
  rcases hi : f.knots[i]? with _ | k
  · exact .inl rfl
  · exact .inr (Array.mem_of_getElem? hi)

/-- What holds of the origin and of all points of a glyph holds of all points that it is drawn
with. -/
theorem Glyph.forall_points_knot {P : Point α → Prop} {g : Glyph α} (hdefault : P default)
    (h : ∀ f ∈ g.figures, ∀ k ∈ f.knots, ∀ p ∈ k.points, P p) {f : Figure α} {c : Contour}
    (hfc : (f, c) ∈ g.contours) (i : ℕ) : ∀ p ∈ (f.knot i).points, P p := by
  rcases f.knot_eq_or_mem i with heq | hmem
  · rw [heq]
    exact List.forall_mem_singleton.mpr hdefault
  · exact h f (mem_figures_of_mem_contours hfc) _ hmem

-- ---------------------------------------------------------------------------
-- Outlines on the grid
-- ---------------------------------------------------------------------------

def Builder.mark (b : Builder α) (mask : Option HintMask) : Builder α :=
  b.modifyCurrent fun k => { k with mask := mask.or k.mask }

namespace Stroke

/-- Draws a stroke with rounded coordinates. One that leads back to the start of its contour
brings no mask. -/
def drawSnapped (masks : HintMask → Option HintMask) (b : Builder α) (s : Stroke α) : Builder α :=
  let stop := s.stop.anchor.map Scalar.snap
  let b :=
    if s.isLine then b.lineTo stop
    else b.curveTo (s.start.leaving.map Scalar.snap) (s.stop.arriving.map Scalar.snap) stop
  b.mark (if s.isClosing then none else s.stop.mask.bind masks)

/-- The rounded control points and the rounded end point. -/
def snappedPoints (s : Stroke α) : List (Point α) :=
  let stop := s.stop.anchor.map Scalar.snap
  if s.isLine then [stop]
  else [s.start.leaving.map Scalar.snap, s.stop.arriving.map Scalar.snap, stop]

end Stroke

namespace Figure

def drawSnapped (masks : HintMask → Option HintMask) (f : Figure α) (b : Builder α) (c : Contour) :
    Builder α :=
  let first := f.knot c.first
  (f.drawnStrokes c).foldl (Stroke.drawSnapped masks)
    ((b.moveTo (first.anchor.map Scalar.snap)).mark (first.mask.bind masks))

end Figure

namespace Glyph

/-- Everything that a glyph draws by itself, in one cubic figure. -/
def snapped (masks : HintMask → Option HintMask) (g : Glyph α) : Figure α :=
  (g.contours.foldl (fun b (f, c) => Figure.drawSnapped masks f b c) ({} : Builder α)).finish

/-- The rounded points in the order in which a pen comes to them. -/
def route (g : Glyph α) : List (Point α) :=
  g.contours.flatMap fun (f, c) =>
    (f.knot c.first).anchor.map Scalar.snap :: (f.drawnStrokes c).flatMap Stroke.snappedPoints

theorem snapped_congr {g : Glyph α} (h : ∀ f ∈ g.figures, ∀ k ∈ f.knots, k.mask = none)
    (masks masks' : HintMask → Option HintMask) : g.snapped masks = g.snapped masks' := by
  have hknot (f : Figure α) (hf : f ∈ g.figures) (i : ℕ) : (f.knot i).mask = none := by
    rcases f.knot_eq_or_mem i with heq | hmem
    · rw [heq]
      rfl
    · exact h f hf _ hmem
  have hdraw (f : Figure α) (hf : f ∈ g.figures) (c : Contour) (b : Builder α) :
      f.drawSnapped masks b c = f.drawSnapped masks' b c := by
    unfold Figure.drawSnapped
    dsimp only
    rw [hknot f hf, Option.bind_none, Option.bind_none]
    refine List.foldl_ext _ _ _ fun b s hs => ?_
    have hmask : s.stop.mask = none := by
      obtain ⟨_, _, -, hstop⟩ := Figure.exists_knots hs
      rw [hstop]
      exact hknot f hf _
    rw [Stroke.drawSnapped, Stroke.drawSnapped, hmask, Option.bind_none, Option.bind_none]
  unfold snapped
  congr 1
  refine List.foldl_ext _ _ _ fun b (f, c) hmem => ?_
  exact hdraw f (mem_figures_of_mem_contours hmem) c b

end Glyph

namespace Point

/-- Neither displacement from one point to the next reaches 32768. -/
def IsNear (p q : Point α) : Prop :=
  Scalar.abs (q.x - p.x) < 32768 ∧ Scalar.abs (q.y - p.y) < 32768

instance (p q : Point α) : Decidable (p.IsNear q) := inferInstanceAs (Decidable (_ ∧ _))

end Point

/-- From the origin to the last point there is no displacement that an operand cannot hold. -/
def Glyph.IsDense (g : Glyph α) : Prop := ((default : Point α) :: g.route).IsChain Point.IsNear

instance (g : Glyph α) : Decidable g.IsDense := inferInstanceAs (Decidable (List.IsChain _ _))

-- ---------------------------------------------------------------------------
-- Closed outlines
-- ---------------------------------------------------------------------------

def Stroke.drawPlain (b : Builder α) (s : Stroke α) : Builder α :=
  if s.isLine then b.lineTo s.stop.anchor
  else b.curveTo s.start.leaving s.stop.arriving s.stop.anchor

def Figure.drawClosed (f : Figure α) (b : Builder α) (c : Contour) : Builder α :=
  ((f.drawnStrokes c).foldl Stroke.drawPlain (b.moveTo (f.knot c.first).anchor)).close

/-- Everything that a glyph draws by itself, in one cubic figure of closed contours. -/
def Glyph.closed (g : Glyph α) : Figure α :=
  (g.contours.foldl (fun b (f, c) => f.drawClosed b c) ({} : Builder α)).finish

end Letterform
