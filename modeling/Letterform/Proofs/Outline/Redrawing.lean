import Letterform.Outline.Convert
import Letterform.Proofs.Outline.Drawn

/-!
# Figures that are drawn again

A figure is drawn again with cubic curves by the commands of a pen, one for each of its strokes. The
masks and the numbers of its knots are handed on.
-/

namespace Letterform

variable {α : Type}

theorem Knot.keepsShape_inherit (k : Knot α) :
    Knot.KeepsShape (α := α) ({ · with mask := k.mask, number := k.number }) :=
  ⟨fun _ => rfl, fun _ => rfl, fun _ => rfl, fun _ => rfl, fun _ => rfl⟩

variable [Scalar α]

namespace Stroke

/-- The control points of a stroke as a cubic curve, unless it is a line. -/
def raisedControls (s : Stroke α) : Option (Point α × Point α) :=
  if s.isLine then none
  else
    match s.order with
    | .quadratic =>
      some (elevated s.start.anchor s.start.leaving, elevated s.stop.anchor s.start.leaving)
    | .cubic => some (s.start.leaving, s.stop.arriving)

/-- The command that draws a stroke as a cubic curve, or as a line. -/
def raised (s : Stroke α) : PenCommand α :=
  match s.raisedControls with
  | none => .lineTo s.stop.anchor
  | some (c1, c2) => .curveTo c1 c2 s.stop.anchor

theorem draw_cubic (s : Stroke α) (accuracy : α) (b : Builder α) :
    s.draw .cubic accuracy b = b.obey s.raised := by
  unfold draw raised raisedControls
  dsimp only
  split_ifs
  · rfl
  · cases s.order <;> rfl

/-- The control point that a knot gets when a stroke leaves it. -/
def departing (s : Stroke α) : Option (Point α) :=
  s.raisedControls.bind fun c => if c.1 == s.start.anchor then none else some c.1

def arriving (s : Stroke α) : Option (Point α) :=
  s.raisedControls.bind fun c => if c.2 == s.stop.anchor then none else some c.2

end Stroke

namespace Builder

variable {b : Builder α}

theorem endContour_endContour (b : Builder α) (close : Bool) :
    (b.endContour close).endContour false = b.endContour close := by
  rw [Builder.endContour, path_endContour]

theorem moveTo_endContour (b : Builder α) (p : Point α) :
    (b.endContour false).moveTo p = b.moveTo p := by
  rw [moveTo, endContour_endContour, moveTo]

theorem IsNeat.inherit (h : b.IsNeat) (k : Knot α) : (Figure.inherit b k).IsNeat :=
  h.modifyCurrent k.keepsShape_inherit

end Builder

namespace Figure

/-- Draws a stroke again, with the mask and the number of the knot it leads to. -/
def redrawStroke (order : CurveOrder) (accuracy : α) (b : Builder α) (s : Stroke α) : Builder α :=
  let b := s.draw order accuracy b
  if s.isClosing then b else inherit b s.stop

theorem endContour_redrawContour (f : Figure α) (order : CurveOrder) (accuracy : α)
    (b : Builder α) (c : Contour) :
    (f.redrawContour order accuracy b c).endContour false =
      ((f.strokes c).foldl (redrawStroke order accuracy)
        (inherit (b.moveTo (f.knot c.first).anchor) (f.knot c.first))).endContour
          (f.isClosed c) := by
  show Builder.endContour (if f.isClosed c then Builder.close _ else _) false = _
  cases f.isClosed c
  · rfl
  · exact Builder.endContour_endContour _ true

end Figure

namespace Builder

variable {b : Builder α}

theorem IsNeat.redrawStroke (h : b.IsNeat) (accuracy : α) (s : Stroke α) :
    (Figure.redrawStroke .cubic accuracy b s).IsNeat := by
  unfold Figure.redrawStroke
  dsimp only
  rw [s.draw_cubic]
  split_ifs
  · exact h.obey s.raised
  · exact (h.obey s.raised).inherit s.stop

theorem IsNeat.redrawStrokes (h : b.IsNeat) (accuracy : α) (strokes : List (Stroke α)) :
    (strokes.foldl (Figure.redrawStroke .cubic accuracy) b).IsNeat := by
  induction strokes generalizing b with
  | nil => exact h
  | cons s strokes ih => exact ih (h.redrawStroke accuracy s)

theorem IsNeat.redrawContour (h : b.IsNeat) (f : Figure α) (accuracy : α) (c : Contour) :
    (f.redrawContour .cubic accuracy b c).IsNeat := by
  have hstrokes := ((h.moveTo (f.knot c.first).anchor).inherit (f.knot c.first)).redrawStrokes
    accuracy (f.strokes c)
  show IsNeat (if f.isClosed c then Builder.close _ else _)
  split_ifs
  · exact hstrokes.endContour true
  · exact hstrokes

theorem inherit_spec (hsound : b.IsSound) {first last : ℕ} (hpath : b.path = some (first, last))
    (k : Knot α) :
    (Figure.inherit b k).path = some (first, last) ∧
      (Figure.inherit b k).figure.contours = b.figure.contours ∧
      ∀ i, (Figure.inherit b k).figure.knot i =
        if i = last then { b.figure.knot last with mask := k.mask, number := k.number }
        else b.figure.knot i := by
  have hsize := (hsound.first_le hpath).2
  rw [Figure.inherit, modifyCurrent_eq hpath]
  refine ⟨hpath, rfl, fun i => ?_⟩
  exact Figure.knot_modifyKnot_of_lt b.figure (by omega) _ i

-- ---------------------------------------------------------------------------
-- One stroke
-- ---------------------------------------------------------------------------

structure StrokeDrawn (b : Builder α) (first last : ℕ) (s : Stroke α) (b' : Builder α) : Prop where
  path : b'.path = some (first, last + 1)
  contours : b'.figure.contours = b.figure.contours
  size : b'.figure.knots.size = last + 2
  knot : ∀ i, b'.figure.knot i =
    if i = last + 1 then
      { anchor := s.stop.anchor
        controlIn := s.arriving
        segmentIn := some b.figure.segments.size }
    else if i = last then
      { b.figure.knot last with
        controlOut := s.departing
        segmentOut := some b.figure.segments.size }
    else b.figure.knot i

theorem IsNeat.strokeDrawn (h : b.IsNeat) {first last : ℕ} (hpath : b.path = some (first, last))
    {s : Stroke α} (hanchor : (b.figure.knot last).anchor = s.start.anchor) :
    b.StrokeDrawn first last s (b.obey s.raised) := by
  have hcontrol := (h.bare first last hpath).controlOut
  unfold Stroke.raised
  cases hcontrols : s.raisedControls with
  | none =>
    have hdraw : b.obey (.lineTo s.stop.anchor) =
        (b.modifyCurrent id).extend { anchor := s.stop.anchor } b.order := by
      rw [modifyCurrent_id]
      exact congrArg (fun b' : Builder α => b'.extend _ b'.order) (start_eq hpath _)
    have hdeparting : s.departing = none := by rw [Stroke.departing, hcontrols]; rfl
    have harriving : s.arriving = none := by rw [Stroke.arriving, hcontrols]; rfl
    obtain ⟨hp, hc, hs⟩ := draw_spec h.sound hpath id { anchor := s.stop.anchor } b.order
    dsimp only
    rw [hdraw]
    refine ⟨hp, hc, hs, fun i => (knot_draw h.sound hpath _ _ _ i).trans ?_⟩
    rw [hdeparting, harriving, ← hcontrol]
    rfl
  | some c =>
    obtain ⟨c1, c2⟩ := c
    let change (k : Knot α) : Knot α :=
      { k with controlOut := if c1 == k.anchor then none else some c1 }
    let stop : Knot α :=
      { anchor := s.stop.anchor, controlIn := if c2 == s.stop.anchor then none else some c2 }
    have hdraw : b.obey (.curveTo c1 c2 s.stop.anchor) =
        (b.modifyCurrent change).extend stop .cubic :=
      congrArg (fun b' : Builder α => (b'.modifyCurrent change).extend stop .cubic)
        (start_eq hpath _)
    have hdeparting : s.departing =
        if c1 == (b.figure.knot last).anchor then none else some c1 := by
      rw [Stroke.departing, hcontrols, hanchor]
      rfl
    have harriving : s.arriving = if c2 == s.stop.anchor then none else some c2 := by
      rw [Stroke.arriving, hcontrols]
      rfl
    obtain ⟨hp, hc, hs⟩ := draw_spec h.sound hpath change stop .cubic
    dsimp only
    rw [hdraw]
    refine ⟨hp, hc, hs, fun i => (knot_draw h.sound hpath _ _ _ i).trans ?_⟩
    rw [hdeparting, harriving]

/-- What a stroke that comes back to the first knot adds to a figure when its contour ends. -/
structure StrokeJoined (b : Builder α) (c : Contour) (s : Stroke α) (f' : Figure α) : Prop where
  contours : f'.contours = b.figure.contours.push c
  size : f'.knots.size = c.last + 1
  kept : ∀ i < c.first, f'.knot i = b.figure.knot i
  knot : ∀ i, c.first ≤ i → i ≤ c.last → ∃ segmentIn segmentOut, f'.knot i =
    { b.figure.knot i with
      controlIn := if i = c.first then s.arriving else (b.figure.knot i).controlIn
      controlOut := if i = c.last then s.departing else (b.figure.knot i).controlOut
      segmentIn, segmentOut }
  segmentOut : (f'.knot c.last).segmentOut.isSome = true

theorem IsNeat.strokeJoined (h : b.IsNeat) {c : Contour} (hpath : b.path = some (c.first, c.last))
    {s : Stroke α} (hanchor : (b.figure.knot c.last).anchor = s.start.anchor)
    (hmeets : (b.figure.knot c.first).anchor.isClose s.stop.anchor = true) :
    b.StrokeJoined c s ((b.obey s.raised).endContour true).figure := by
  have hle := (h.sound.first_le hpath).1
  have hdrawn := h.strokeDrawn hpath hanchor
  have hneat := h.obey s.raised
  generalize b.obey s.raised = b' at hdrawn hneat ⊢
  have hremoved := (hdrawn.knot (c.last + 1)).trans (if_pos rfl)
  have hleft (i : ℕ) (hi : i ≤ c.last) := (hdrawn.knot i).trans (if_neg (by omega))
  have hfirst : (b'.figure.knot c.first).anchor = (b.figure.knot c.first).anchor := by
    rw [hleft _ hle]
    split_ifs with hsame
    · rw [hsame]
    · rfl
  have hmeets' : (b'.figure.knot c.first).anchor.isClose (b'.figure.knot (c.last + 1)).anchor =
      true := by
    rw [hfirst, hremoved]
    exact hmeets
  have hknot (i : ℕ) (hi : i ≤ c.last) := knot_joinLast b'.figure c.first
    (b'.figure.knot (c.last + 1)) (b'.figure.leavingSegment c.last) i
    (by rw [hdrawn.size]; omega) (by rw [hdrawn.size]; omega)
  have hcontours := contours_joinLast b'.figure c.first (b'.figure.knot (c.last + 1))
    (b'.figure.leavingSegment c.last)
  have hsize := size_joinLast b'.figure c.first (b'.figure.knot (c.last + 1))
    (b'.figure.leavingSegment c.last)
  rw [hdrawn.contours] at hcontours
  rw [hdrawn.size] at hsize
  rw [hneat.figure_endContour hdrawn.path, if_neg (by omega), hmeets', if_pos rfl,
    Nat.add_sub_cancel]
  generalize joinLast b'.figure c.first _ _ = joined at *
  have hdeparted (i : ℕ) (hi : i ≤ c.last) : ∃ segmentOut, b'.figure.knot i =
      { b.figure.knot i with
        controlOut := if i = c.last then s.departing else (b.figure.knot i).controlOut
        segmentOut } ∧ (i = c.last → segmentOut.isSome = true) := by
    rw [hleft i hi]
    split_ifs with hlast
    · exact ⟨_, by rw [hlast], fun _ => rfl⟩
    · exact ⟨_, rfl, fun h => absurd h hlast⟩
  -- The knot that is dropped has no mask, so the first one keeps its own.
  have harrived (i : ℕ) (hi : i ≤ c.last) : ∃ segmentIn, joined.knot i =
      { b'.figure.knot i with
        controlIn := if i = c.first then s.arriving else (b'.figure.knot i).controlIn
        segmentIn } := by
    rw [hknot i hi]
    split_ifs with hfirst
    · simp only [hremoved, Option.or_none, ← hfirst]
      exact ⟨_, rfl⟩
    · exact ⟨_, rfl⟩
  refine ⟨congrArg (·.push c) hcontours, hsize, fun i hi => ?_, fun i hi hi' => ?_, ?_⟩
  · refine ((hknot i (by omega)).trans (if_neg hi.ne)).trans ?_
    rw [hleft i (by omega), if_neg (by omega)]
  · obtain ⟨segmentOut, hk, -⟩ := hdeparted i hi'
    obtain ⟨segmentIn, hk'⟩ := harrived i hi'
    exact ⟨segmentIn, segmentOut, hk'.trans (by rw [hk])⟩
  · obtain ⟨segmentOut, hk, hsome⟩ := hdeparted c.last le_rfl
    obtain ⟨segmentIn, hk'⟩ := harrived c.last le_rfl
    refine (congrArg (fun k : Knot α => k.segmentOut.isSome) hk').trans ?_
    rw [hk]
    exact hsome rfl

end Builder

end Letterform
