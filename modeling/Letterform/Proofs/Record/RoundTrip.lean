import Letterform.Proofs.Outline.Order
import Letterform.Proofs.Record.Gathering

/-!
# Glyphs survive being written and read

A glyph with lines and quadratic curves is read back from its record with all its contours, every
point on the nearest whole coordinates. The glyph that is read is written as the same bytes again.
-/

namespace Letterform

variable {α : Type} [Scalar α]

namespace Record

open OutlinePoint (trace)
open Scalar (IsFixed)

-- ---------------------------------------------------------------------------
-- Lines and quadratic curves
-- ---------------------------------------------------------------------------

theorem isQuadratic_drawPoints {b : Builder α} (h : b.HasOrder .quadratic)
    (control : Option (OutlinePoint α)) (points : List (OutlinePoint α)) :
    (drawPoints b control points).HasOrder .quadratic := by
  induction points generalizing b control with
  | nil => exact h
  | cons p rest ih =>
    cases control with
    | none =>
      rw [drawPoints]
      dsimp only
      split_ifs
      · exact ih ((h.lineTo _).modifyCurrent _) none
      · exact ih h (some p)
    | some c =>
      rw [drawPoints]
      dsimp only
      split_ifs
      · exact ih (((h.modifyCurrent _).quadTo _ _).modifyCurrent _) none
      · exact ih (((h.modifyCurrent _).quadTo _ _).modifyCurrent _) (some p)

theorem isQuadratic_drawContour {b : Builder α} (h : b.HasOrder .quadratic)
    (points : List (OutlinePoint α)) : (drawContour b points).HasOrder .quadratic := by
  have hstart (p : OutlinePoint α) := (h.moveTo p.position).modifyCurrent ({ · with number := p.number })
  unfold drawContour
  dsimp only
  split
  · exact (hstart _).endContour true
  · split
    · exact h
    · exact (isQuadratic_drawPoints (hstart _) none _).endContour true

theorem isQuadratic_figure (flags : List PointFlags) (xs ys : List ℤ) (ends : List ℕ) :
    (figure flags xs ys ends : Figure α).HasOrder .quadratic := by
  have hdraw (pieces : List (List (OutlinePoint α))) {b : Builder α} (h : b.HasOrder .quadratic) :
      (pieces.foldl drawContour b).HasOrder .quadratic := by
    induction pieces generalizing b with
    | nil => exact h
    | cons piece pieces ih => exact ih (isQuadratic_drawContour h piece)
  exact ((hdraw _ (.empty .quadratic)).endContour false).figure

theorem hasCurves_glyph (r : RecordLayout) : (r.glyph : Glyph α).hasCurves .cubic = false := by
  have hfigures : (r.glyph : Glyph α).figures =
      if (r.figure : Figure α).isEmpty then [] else [r.figure] := rfl
  have hfigure : (r.figure : Figure α).hasCurves .cubic = false :=
    (isQuadratic_figure _ _ _ _).hasCurves nofun
  rw [Glyph.hasCurves, hfigures]
  split_ifs
  · rfl
  · rw [List.any_cons, hfigure]
    rfl

-- ---------------------------------------------------------------------------
-- Points
-- ---------------------------------------------------------------------------

section Lawful

variable [LawfulScalar α]

theorem roundUp_ofInt {n : ℤ} (h : IsWord n) :
    Scalar.toInt32 (Scalar.roundUp (Scalar.ofInt n : α)) = n := by
  have hfixed := Scalar.isFixed_ofInt (α := α) h.abs_lt_two_pow
  obtain ⟨hlow, hhigh⟩ := h
  exact hfixed.toInt32_roundUp (by omega) (by omega)

theorem map_trace_numbered {points : List RecordPoint} {flags : List PointFlags}
    (hwritable : ∀ p ∈ points, p.IsWritable) (hflags : List.Forall₂ RecordPoint.Tells points flags) :
    (numbered flags (points.map (·.x)) (points.map (·.y)) : List (OutlinePoint α)).map trace =
      points.map RecordPoint.trace := by
  have hlength := hflags.length_eq
  refine List.ext_getElem (by simp [numbered, hlength]) fun i hi hi' => ?_
  have hpoint : i < points.length := by simpa using hi'
  obtain ⟨hx, hy, -⟩ := hwritable points[i] (List.getElem_mem hpoint)
  have honCurve := (hflags.get (i := i) hpoint (hlength ▸ hpoint)).onCurve
  simp only [List.get_eq_getElem] at honCurve
  simp only [numbered, List.getElem_map, List.getElem_zipIdx, List.getElem_zip, trace,
    OutlinePoint.place, roundUp_ofInt hx, roundUp_ofInt hy, honCurve]
  rfl

end Lawful

-- ---------------------------------------------------------------------------
-- Records
-- ---------------------------------------------------------------------------

def writtenPoints (g : Glyph α) : List RecordPoint :=
  SimpleRecord.steppedAll (0, 0) (g.outlines.flatten.map (·.trace))

theorem map_trace_writtenPoints (g : Glyph α) :
    (writtenPoints g).map RecordPoint.trace = g.outlines.flatten.map (·.trace) :=
  SimpleRecord.map_trace_steppedAll _ _

theorem map_x_writtenPoints (g : Glyph α) :
    (writtenPoints g).map (·.x) = g.outlines.flatten.map (·.place.1) := by
  have := congrArg (List.map fun t => t.1.1) (map_trace_writtenPoints g)
  rwa [List.map_map, List.map_map] at this

theorem map_y_writtenPoints (g : Glyph α) :
    (writtenPoints g).map (·.y) = g.outlines.flatten.map (·.place.2) := by
  have := congrArg (List.map fun t => t.1.2) (map_trace_writtenPoints g)
  rwa [List.map_map, List.map_map] at this

/-- These bytes are a record of a glyph, and this is its layout. -/
structure IsLayout (g : Glyph α) (bytes : List UInt8) (l : RecordLayout) : Prop where
  describes : l.Describes false bytes
  writable : ∀ p ∈ writtenPoints g, p.IsWritable
  flags : List.Forall₂ RecordPoint.Tells (writtenPoints g) l.flags
  xs : sums 0 l.xSteps = (writtenPoints g).map (·.x)
  ys : sums 0 l.ySteps = (writtenPoints g).map (·.y)
  left : ((writtenPoints g).map (·.x)).min? = some l.left
  lower : ((writtenPoints g).map (·.y)).min? = some l.lower
  right : ((writtenPoints g).map (·.x)).max? = some l.right
  upper : ((writtenPoints g).map (·.y)).max? = some l.upper
  ends : l.ends = SimpleRecord.endsFrom 0 g.outlines
  instructions : l.instructions = g.instructions
  overlaps : l.overlaps = g.overlaps

theorem exists_layout {g : Glyph α} {r : SimpleRecord} (h : SimpleRecord.ofGlyph g = .ok (some r)) :
    ∃ l, IsLayout g r.toBytes l := by
  obtain ⟨hpoints, hends, hinstructions, hoverlaps, hne, hfits⟩ := SimpleRecord.ofGlyph_ok h
  have hnonempty : r.points ≠ [] := by
    obtain ⟨contour, rest, hcontours⟩ := List.exists_cons_of_ne_nil hne
    obtain ⟨p, tail, hcontour⟩ := List.exists_cons_of_ne_nil
      (SimpleRecord.outlines_ne_nil g contour (by rw [hcontours]; exact List.mem_cons_self))
    rw [hpoints, hcontours, hcontour]
    exact List.cons_ne_nil _ _
  obtain ⟨l, hl, hbounds, hlends, hlinstructions, hflags, hloverlaps, hxs, hys⟩ :=
    SimpleRecord.describes_toBytes hfits hnonempty
  obtain ⟨left, lower, right, upper, hbounds', hleft, hlower, hright, hupper⟩ :=
    SimpleRecord.exists_bounds hnonempty
  rw [hbounds'] at hbounds
  cases hbounds
  obtain ⟨hsumsX, hsumsY⟩ := SimpleRecord.sums_steppedAll (0, 0)
    (g.outlines.flatten.map (·.trace))
  have hwritable := hfits.points
  change r.points = writtenPoints g at hpoints
  rw [hpoints] at hwritable hflags hxs hys hleft hlower hright hupper
  exact ⟨l, hl, hwritable, hflags, hxs ▸ hsumsX, hys ▸ hsumsY, hleft, hlower, hright, hupper,
    hlends.trans hends, hlinstructions.trans hinstructions, hloverlaps.trans hoverlaps⟩

namespace IsLayout

variable {g : Glyph α} {bytes : List UInt8} {l : RecordLayout}

theorem map_onCurve (h : IsLayout g bytes l) :
    l.flags.map (·.contains PointFlags.onCurve) = g.outlines.flatten.map (·.onCurve) := by
  have htraces := congrArg (List.map Prod.snd) (map_trace_writtenPoints g)
  rw [List.map_map, List.map_map] at htraces
  refine Eq.trans ?_ htraces
  rw [← List.forall₂_eq_eq_eq, List.forall₂_map_left_iff, List.forall₂_map_right_iff]
  exact h.flags.flip.imp fun f p hp => hp.onCurve

variable [LawfulScalar α]

theorem map_trace_points (h : IsLayout g bytes l) :
    (l.points : List (OutlinePoint α)).map (·.trace) = g.outlines.flatten.map (·.trace) := by
  rw [RecordLayout.points, h.xs, h.ys, ← map_trace_writtenPoints g]
  exact map_trace_numbered h.writable h.flags

theorem map_trace_pieces (h : IsLayout g bytes l) :
    (l.pieces : List (List (OutlinePoint α))).map (·.map (·.trace)) =
      g.outlines.map (·.map (·.trace)) := by
  rw [RecordLayout.pieces, h.ends]
  exact SimpleRecord.cutContours_endsFrom (SimpleRecord.outlines_ne_nil g) h.map_trace_points

theorem exists_outline (h : IsLayout g bytes l) {piece : List (OutlinePoint α)}
    (hpiece : piece ∈ l.pieces) :
    ∃ contour ∈ g.outlines, contour.length = piece.length := by
  have hmem := List.mem_map_of_mem (f := (·.map (·.trace))) hpiece
  rw [h.map_trace_pieces] at hmem
  obtain ⟨contour, hcontour, heq⟩ := List.mem_map.mp hmem
  have hlength := congrArg List.length heq
  rw [List.length_map, List.length_map] at hlength
  exact ⟨contour, hcontour, hlength⟩

theorem outlines_glyph (h : IsLayout g bytes l) :
    (l.glyph : Glyph α).outlines = l.pieces.map shown := by
  obtain ⟨_, _, _, _, hfits, -⟩ := h.describes
  rw [hfits.outlines_glyph, drawn, List.filter_eq_self.mpr]
  intro piece hpiece
  obtain ⟨contour, hcontour, hlength⟩ := h.exists_outline hpiece
  have hpos := List.length_pos_iff.mpr (SimpleRecord.outlines_ne_nil g contour hcontour)
  rw [hlength, List.length_pos_iff] at hpos
  simpa using hpos

theorem contourCount_glyph (h : IsLayout g bytes l) :
    (l.glyph : Glyph α).contourCount = g.contourCount := by
  have hcount (g : Glyph α) : g.contourCount = g.outlines.length := (List.length_map _).symm
  have hpieces := congrArg List.length h.map_trace_pieces
  rw [List.length_map, List.length_map] at hpieces
  rw [hcount, hcount, h.outlines_glyph, List.length_map, hpieces]

theorem numberedPoints_glyph (h : IsLayout g bytes l) :
    (l.glyph : Glyph α).numberedPoints =
      g.outlines.flatten.map fun p => ⟨Scalar.ofInt p.place.1, Scalar.ofInt p.place.2⟩ := by
  obtain ⟨_, _, _, _, hfits, -⟩ := h.describes
  rw [hfits.numberedPoints_glyph, h.xs, h.ys, map_x_writtenPoints, map_y_writtenPoints,
    List.zipWith_map, List.zipWith_self]

theorem ofGlyph_glyph (h : IsLayout g bytes l)
    (hlong : ∀ contour ∈ g.outlines, 2 ≤ contour.length) :
    SimpleRecord.ofGlyph (l.glyph : Glyph α) = SimpleRecord.ofGlyph g := by
  have hshown : ∀ piece ∈ (l.pieces : List (List (OutlinePoint α))), shown piece = piece := by
    intro piece hpiece
    obtain ⟨contour, hcontour, hlength⟩ := h.exists_outline hpiece
    have htwo := hlong contour hcontour
    rcases piece with _ | ⟨p, _ | ⟨q, rest⟩⟩
    · rfl
    · rw [hlength, List.length_singleton] at htwo
      omega
    · rfl
  refine SimpleRecord.ofGlyph_congr ?_ h.instructions h.overlaps
  rw [h.outlines_glyph, List.map_congr_left hshown, List.map_id', h.map_trace_pieces]

end IsLayout

theorem encode_simple {g : Glyph α} (hcomponents : g.components = [])
    (hcurves : g.hasCurves .cubic = false) (e : Encoder α) (id : GlyphId)
    (source : GlyphSource α) :
    (e.encode id g source).1 =
      (SimpleRecord.ofGlyph g).map fun r => (r.map (·.toBytes)).getD [] := by
  have hquadratic : quadratic g e.accuracy = g := by
    rw [quadratic, hcurves, if_neg Bool.false_ne_true]
  rw [Encoder.encode, write, hcomponents, List.isEmpty_nil, if_pos rfl, writeSimple, hquadratic]
  rcases SimpleRecord.ofGlyph g with error | _ | r
  · rfl
  · rfl
  · rfl

/-- A glyph is read back from a record: with every contour, with every point of them on the nearest
whole coordinates and on the curve or not as before, with the box around these points, with the
instructions and with the mark of overlaps. Unless a contour is a single point, the glyph that is
read has the same record. -/
structure IsReadBack (g : Glyph α) (bytes : List UInt8) : Prop where
  diagnostics : (decode bytes : Decoded Error α).diagnostics = []
  contourCount : (decode bytes : Decoded Error α).glyph.contourCount = g.contourCount
  numberedPoints : (decode bytes : Decoded Error α).glyph.numberedPoints =
    g.outlines.flatten.map fun p => ⟨Scalar.ofInt p.place.1, Scalar.ofInt p.place.2⟩
  onCurve : ∃ l : RecordLayout, l.Describes false bytes ∧
    l.flags.map (·.contains PointFlags.onCurve) = g.outlines.flatten.map (·.onCurve)
  bounds : ∃ left lower right upper,
    (g.outlines.flatten.map (·.place.1)).min? = some left ∧
    (g.outlines.flatten.map (·.place.2)).min? = some lower ∧
    (g.outlines.flatten.map (·.place.1)).max? = some right ∧
    (g.outlines.flatten.map (·.place.2)).max? = some upper ∧
    (decode bytes : Decoded Error α).glyph.bounds =
      ⟨Scalar.ofInt left, Scalar.ofInt lower, Scalar.ofInt right, Scalar.ofInt upper⟩
  instructions : (decode bytes : Decoded Error α).glyph.instructions = g.instructions
  overlaps : (decode bytes : Decoded Error α).glyph.overlaps = g.overlaps
  again : (∀ contour ∈ g.outlines, 2 ≤ contour.length) →
    ∀ (e : Encoder α) (id : GlyphId) (source : GlyphSource α),
      (e.encode id (decode bytes : Decoded Error α).glyph source).1 = .ok bytes

theorem isReadBack_toBytes [LawfulScalar α] {g : Glyph α} {r : SimpleRecord}
    (h : SimpleRecord.ofGlyph g = .ok (some r)) : IsReadBack g r.toBytes := by
  obtain ⟨l, hl⟩ := exists_layout h
  have hdecode : (decode r.toBytes : Decoded Error α) = ⟨l.glyph, []⟩ :=
    RecordLayout.decode_of_describes hl.describes
  constructor
  case onCurve => exact ⟨l, hl.describes, hl.map_onCurve⟩
  all_goals rw [hdecode]
  case contourCount => exact hl.contourCount_glyph
  case numberedPoints => exact hl.numberedPoints_glyph
  case bounds =>
    rw [← map_x_writtenPoints, ← map_y_writtenPoints]
    exact ⟨l.left, l.lower, l.right, l.upper, hl.left, hl.lower, hl.right, hl.upper, rfl⟩
  case instructions => exact hl.instructions
  case overlaps => exact hl.overlaps
  case again =>
    intro hlong e id source
    rw [encode_simple rfl (hasCurves_glyph l), hl.ofGlyph_glyph hlong, h]
    rfl

-- ---------------------------------------------------------------------------
-- Doubles
-- ---------------------------------------------------------------------------

/-- In doubles, a glyph of lines and quadratic curves is read back from the record that is written
for it. -/
theorem decode_encode_simple {g : Glyph Float} (hcomponents : g.components = [])
    (hcurves : g.hasCurves .cubic = false) {e : Encoder Float} {id : GlyphId}
    {source : GlyphSource Float} {bytes : List UInt8} (h : (e.encode id g source).1 = .ok bytes)
    (hne : bytes ≠ []) : IsReadBack g bytes := by
  rw [encode_simple hcomponents hcurves] at h
  rcases hrecord : SimpleRecord.ofGlyph g with error | _ | r
  · rw [hrecord] at h
    cases h
  · rw [hrecord] at h
    cases h
    exact absurd rfl hne
  · rw [hrecord] at h
    cases h
    exact isReadBack_toBytes hrecord

/-- A drop of two curves with an implied knot between them, and a line that stays open. -/
def drop : Figure Float :=
  let b : Builder Float := ({ order := .quadratic } : Builder Float).moveTo ⟨0, 300.5⟩
  let b := (b.quadTo ⟨-200, 0⟩ ⟨0, 0⟩).quadTo ⟨200, 0⟩ ⟨0, 300.5⟩
  ((b.close.moveTo ⟨40, 20⟩).lineTo ⟨90, 20⟩).finish

def dropGlyph : Glyph Float :=
  { Glyph.empty .truetype with figures := [drop], instructions := [1, 2], overlaps := true }

theorem decode_encode_drop : ∃ bytes,
    ((Encoder.new : Encoder Float).encode 0 dropGlyph fun _ => none).1 = .ok bytes ∧
      IsReadBack dropGlyph bytes := by
  have hany : ((Encoder.new : Encoder Float).encode 0 dropGlyph fun _ => none).1.toOption.any
      (!·.isEmpty) = true := by decide +kernel
  rcases h : ((Encoder.new : Encoder Float).encode 0 dropGlyph fun _ => none).1 with e | bytes
  · rw [h] at hany
    cases hany
  · rw [h] at hany
    have hne : bytes ≠ [] := by
      rintro rfl
      cases hany
    exact ⟨bytes, rfl, decode_encode_simple rfl (by decide +kernel) h hne⟩

end Record

end Letterform
