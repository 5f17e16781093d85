import Letterform.Proofs.Geometry.Affine
import Letterform.Proofs.Outline.Transform
import Letterform.Proofs.Record.Points

/-!
# Moving the figures of records

Without rounding, a contour that is drawn from moved points is the moved contour: a knot halfway
between two control points stays there, and a contour that comes back to its start still does. So
the points of a figure from a record keep their numbers when the figure is moved, even if points
fall together or the contours change their direction.
-/

namespace Letterform

variable {α : Type} [Scalar α]

def OutlinePoint.move (t : Affine α) (p : OutlinePoint α) : OutlinePoint α :=
  { p with position := t.apply p.position }

/-- The points of a figure in the order of their numbers. -/
def Figure.numberedPoints (f : Figure α) : List (Point α) :=
  f.contours.toList.flatMap fun c => (f.outlinePoints c).map (·.position)

theorem Glyph.numberedPoints_eq_flatMap (g : Glyph α) :
    g.numberedPoints = g.figures.flatMap Figure.numberedPoints := by
  rw [numberedPoints, contours, List.flatMap_assoc]
  simp only [List.flatMap_map]
  rfl

namespace Record

open OutlinePoint (move IsNumbered isNumbered_append)

theorem isNumbered_map_move (t : Affine α) {n : ℕ} {points : List (OutlinePoint α)} :
    IsNumbered n (points.map (move t)) ↔ IsNumbered n points := by
  rw [IsNumbered, IsNumbered, List.map_map, List.length_map]
  rfl

theorem map_position_map_move (t : Affine α) (points : List (OutlinePoint α)) :
    (points.map (move t)).map (·.position) = (points.map (·.position)).map t.apply := by
  rw [List.map_map, List.map_map]
  rfl

variable [ExactScalar α]

theorem areNear_exact (points : List (OutlinePoint α)) : AreNear points :=
  ⟨fun p _ => p.position.isClose_self, fun _ _ _ _ => Point.isClose_self _⟩

variable (t : Affine α)

theorem move_implied (p q : OutlinePoint α) :
    (implied p q).move t = implied (p.move t) (q.move t) := by
  rw [implied, move, Affine.apply_midpoint]
  rfl

theorem transform_drawPoints (b : Builder α) (control : Option (OutlinePoint α))
    (points : List (OutlinePoint α)) :
    (drawPoints b control points).transform t =
      drawPoints (b.transform t) (control.map (move t)) (points.map (move t)) := by
  have harrive (b : Builder α) (number : Option ℕ) : (b.modifyCurrent ({ · with number })).transform t =
      (b.transform t).modifyCurrent ({ · with number }) :=
    b.transform_modifyCurrent t _ _ fun _ => rfl
  have hdepart (b : Builder α) (controlNumber : Option ℕ) :
      (b.modifyCurrent ({ · with controlNumber })).transform t =
        (b.transform t).modifyCurrent ({ · with controlNumber }) :=
    b.transform_modifyCurrent t _ _ fun _ => rfl
  induction points generalizing b control with
  | nil => rfl
  | cons p rest ih =>
    have hp : (p.move t).onCurve = p.onCurve := rfl
    cases control with
    | none =>
      simp only [drawPoints, List.map_cons, Option.map_none, hp]
      split_ifs
      · rw [ih, harrive, Builder.transform_lineTo]
        rfl
      · exact ih b (some p)
    | some c =>
      simp only [drawPoints, List.map_cons, Option.map_some, hp]
      split_ifs
      · rw [ih, harrive, Builder.transform_quadTo, hdepart]
        rfl
      · -- the knot in between is found anew and lies where the old one was moved to
        rw [ih, harrive, Builder.transform_quadTo, hdepart, Affine.apply_midpoint]
        rfl

theorem fromKnot_map_move (points : List (OutlinePoint α)) :
    fromKnot (points.map (move t)) = (fromKnot points).map (move t) := by
  have honCurve : (fun p : OutlinePoint α => p.onCurve) ∘ move t = (·.onCurve) := rfl
  unfold fromKnot
  rw [List.any_map, List.findIdx_map, honCurve]
  split_ifs
  · simp only [List.rotateLeft, List.length_map]
    split_ifs
    · rfl
    · simp
  · rw [List.getLast?_map, List.head?_map]
    cases points.getLast? with
    | none => rfl
    | some last =>
      cases points.head? with
      | none => rfl
      | some first => exact congrArg (· :: points.map (move t)) (move_implied t last first).symm

omit [ExactScalar α] in
theorem exists_fromKnot_cons {points : List (OutlinePoint α)} (hne : points ≠ []) :
    ∃ p rest, fromKnot points = p :: rest ∧ p.onCurve = true := by
  cases hany : points.any (·.onCurve) with
  | true =>
    obtain ⟨first, p, rest, -, hp, hfrom⟩ := exists_fromKnot hany
    exact ⟨p, rest ++ first, hfrom, hp⟩
  | false => exact ⟨_, points, fromKnot_of_offCurve hany hne, rfl⟩

theorem transform_close {f : Figure α} {rows : List (Row α)} {stop : OutlinePoint α} {b : Builder α}
    (h : b.IsTrail f rows stop) (hrows : ∀ row ∈ rows.head?, row.knot.position = stop.position) :
    b.close.transform t = (b.transform t).close := by
  have hfirst : (b.figure.knot f.knots.size).anchor = stop.position := by
    cases rows with
    | nil => exact h.anchor
    | cons row rows => exact (h.leads 0 (by simp)).anchor.trans (hrows row rfl)
  refine b.transform_close t h.path (Nat.le_add_right _ _) h.size.symm ?_ ?_
  · rw [hfirst, h.anchor]
    exact Point.isClose_self _
  · rw [hfirst, h.anchor]
    exact Point.isClose_self _

variable {b : Builder α}

theorem transform_drawContour (hpath : b.path = none) (horder : b.order = .quadratic)
    (points : List (OutlinePoint α)) :
    (drawContour b points).transform t = drawContour (b.transform t) (points.map (move t)) := by
  have hstart (p : OutlinePoint α) :
      ((b.moveTo p.position).modifyCurrent ({ · with number := p.number })).transform t =
        ((b.transform t).moveTo (t.apply p.position)).modifyCurrent
          ({ · with number := p.number }) := by
    rw [← Builder.transform_moveTo t hpath]
    exact Builder.transform_modifyCurrent _ t _ _ fun _ => rfl
  rcases points with _ | ⟨p, _ | ⟨q, rest⟩⟩
  · rfl
  · have htrail := Builder.isTrail_moveTo hpath horder p
    exact (transform_close t htrail nofun).trans (congrArg Builder.close (hstart p))
  · obtain ⟨p', rest', hfrom, hp'⟩ := exists_fromKnot_cons (List.cons_ne_nil p (q :: rest))
    obtain ⟨htrail, hhead⟩ := isTrail_contour hpath horder hp' rest'
    have hrows : ∀ row ∈ (rowsFrom p' none (rest' ++ [{ p' with number := none }])).1.head?,
        row.knot.position = p'.position := by
      intro row hrow
      rw [hrow] at hhead
      exact congrArg (·.position) (Option.some.inj hhead)
    rw [List.map_cons, List.map_cons, drawContour_cons_cons, drawContour_cons_cons,
      ← List.map_cons, ← List.map_cons, fromKnot_map_move, hfrom]
    dsimp only [List.map_cons]
    rw [transform_close t htrail hrows, transform_drawPoints, hstart, List.map_append]
    rfl

theorem transform_foldl_drawContour {pieces : List (List (OutlinePoint α))} {n : ℕ}
    (hpath : b.path = none) (horder : b.order = .quadratic)
    (hnumbered : IsNumbered n pieces.flatten) :
    (pieces.foldl drawContour b).transform t =
      (pieces.map (·.map (move t))).foldl drawContour (b.transform t) := by
  induction pieces generalizing b n with
  | nil => rfl
  | cons piece pieces ih =>
    rw [List.flatten_cons] at hnumbered
    obtain ⟨hfirst, hnumbered⟩ := isNumbered_append.mp hnumbered
    rw [List.map_cons, List.foldl_cons, List.foldl_cons,
      ← transform_drawContour t hpath horder piece]
    by_cases hne : piece = []
    · subst hne
      exact ih hpath horder hnumbered
    · have hadds := adds_drawContour hpath horder hfirst (areNear_exact piece) hne
      exact ih hadds.path hadds.order hnumbered

variable {pieces : List (List (OutlinePoint α))}

theorem numberedPoints_foldl_drawContour (hnumbered : IsNumbered 0 pieces.flatten) :
    (pieces.foldl drawContour { order := .quadratic }).finish.numberedPoints =
      pieces.flatten.map (·.position) := by
  have hadds := addsAll_drawContour (b := { order := .quadratic }) rfl rfl hnumbered
    (areNear_exact pieces.flatten)
  rw [Figure.numberedPoints, ← List.map_flatMap, List.flatMap_def, hadds.map_outlinePoints,
    map_position_drawn]

theorem numberedPoints_transform (hnumbered : IsNumbered 0 pieces.flatten) :
    ((pieces.foldl drawContour { order := .quadratic }).finish.transform t).numberedPoints =
      (pieces.foldl drawContour { order := .quadratic }).finish.numberedPoints.map t.apply := by
  have hmoved : IsNumbered 0 (pieces.map (·.map (move t))).flatten := by
    rwa [← List.map_flatten, isNumbered_map_move]
  have hpath := (addsAll_drawContour (b := { order := .quadratic }) rfl rfl hnumbered
    (areNear_exact pieces.flatten)).path
  have hfigure : (pieces.foldl drawContour { order := .quadratic }).finish.transform t =
      ((pieces.map (·.map (move t))).foldl drawContour { order := .quadratic }).finish := by
    have hfold := transform_foldl_drawContour t (b := { order := .quadratic }) rfl rfl hnumbered
    have hstart : ({ order := .quadratic } : Builder α).transform t = { order := .quadratic } := by
      simp [Builder.transform, Figure.transform]
    have hpath' : ((pieces.foldl drawContour { order := .quadratic }).transform t).path = none :=
      hpath
    rw [hstart] at hfold
    rw [← hfold, Builder.finish_of_path hpath, Builder.finish_of_path hpath']
    rfl
  rw [hfigure, numberedPoints_foldl_drawContour hmoved, numberedPoints_foldl_drawContour hnumbered,
    ← List.map_flatten, map_position_map_move]

theorem numberedPoints_transform_decode (data : List UInt8) :
    ∀ f ∈ (decode data : Decoded Error α).glyph.figures,
      (f.transform t).numberedPoints = f.numberedPoints.map t.apply := by
  intro f hf
  obtain ⟨r, excess, hr⟩ := RecordLayout.describes_of_figures (List.ne_nil_of_mem hf)
  rw [RecordLayout.decode_of_describes hr] at hf
  obtain ⟨flagBytes, xBytes, yBytes, rest, h, -⟩ := hr
  have hfigure : f = r.figure := by
    dsimp only [RecordLayout.glyph] at hf
    split_ifs at hf
    · cases hf
    · exact List.mem_singleton.mp hf
  have hnumbered : IsNumbered 0 (r.pieces : List (List (OutlinePoint α))).flatten := by
    rw [h.flatten_pieces]
    exact isNumbered_numbered _ _ _
  rw [hfigure]
  exact numberedPoints_transform t hnumbered

end Record

end Letterform
