import Letterform.Proofs.Number.Double
import Letterform.Proofs.Number.Grid
import Letterform.Proofs.Record.Contour
import Letterform.Proofs.Record.Layout

/-!
# Points are numbered as a record lists them

A simple record is decoded into a figure whose contours, one after another, have the points of the
record in their order. So the number of a point is its place in the record.
-/

namespace Letterform

variable {α : Type} [Scalar α]

def Glyph.outlines (g : Glyph α) : List (List (OutlinePoint α)) :=
  g.contours.map fun (f, c) => f.outlinePoints c

theorem Glyph.numberedPoints_eq (g : Glyph α) :
    g.numberedPoints = g.outlines.flatten.map (·.position) := by
  rw [numberedPoints, outlines, ← List.flatMap_def, List.map_flatMap]

theorem Figure.Shows.extends {f f' : Figure α} {c : Contour} {points : List (OutlinePoint α)}
    (h : f.Shows c points) (h' : f.Extends f') : f'.Shows c points :=
  fun f'' h'' => h f'' (h'.trans h'')

theorem Builder.finish_of_path {b : Builder α} (hpath : b.path = none) : b.finish = b.figure := by
  rw [finish, endContour, hpath]

/-- Contours with these points have been drawn after a figure. -/
structure Builder.AddsAll (f : Figure α) (outlines : List (List (OutlinePoint α))) (b : Builder α) :
    Prop where
  path : b.path = none
  order : b.order = .quadratic
  kept : f.Extends b.figure
  contours : ∃ cs, b.figure.contours.toList = f.contours.toList ++ cs ∧
    List.Forall₂ b.figure.Shows cs outlines

theorem Builder.AddsAll.map_outlinePoints {outlines : List (List (OutlinePoint α))} {b : Builder α}
    (h : b.AddsAll {} outlines) : b.finish.contours.toList.map b.finish.outlinePoints = outlines := by
  obtain ⟨cs, hcs, hshows⟩ := h.contours
  rw [finish_of_path h.path, hcs]
  show cs.map b.figure.outlinePoints = outlines
  rw [← List.forall₂_eq_eq_eq, List.forall₂_map_left_iff]
  exact hshows.imp fun c points hc => hc _ (.refl _)

theorem Builder.Adds.addsAll {f : Figure α} {points : List (OutlinePoint α)} {b b' : Builder α}
    {outlines : List (List (OutlinePoint α))} (h : b.Adds f points)
    (h' : b'.AddsAll b.figure outlines) : b'.AddsAll f (points :: outlines) := by
  obtain ⟨c, hc, hshows⟩ := h.contours
  obtain ⟨cs, hcs, hall⟩ := h'.contours
  refine ⟨h'.path, h'.order, h.kept.trans h'.kept, c :: cs, ?_,
    .cons (hshows.extends h'.kept) hall⟩
  rw [hcs, hc, Array.toList_push, List.append_assoc, List.singleton_append]

namespace Record

open OutlinePoint (IsNumbered isNumbered_append)
open Scalar (IsFixed)

-- ---------------------------------------------------------------------------
-- Contours one after another
-- ---------------------------------------------------------------------------

def drawn (pieces : List (List (OutlinePoint α))) : List (List (OutlinePoint α)) :=
  (pieces.filter (!·.isEmpty)).map shown

theorem addsAll_drawContour {b : Builder α} {n : ℕ} {pieces : List (List (OutlinePoint α))}
    (hpath : b.path = none) (horder : b.order = .quadratic)
    (hnumbered : IsNumbered n pieces.flatten) (hnear : AreNear pieces.flatten) :
    (pieces.foldl drawContour b).AddsAll b.figure (drawn pieces) := by
  induction pieces generalizing b n with
  | nil => exact ⟨hpath, horder, .refl _, [], (List.append_nil _).symm, .nil⟩
  | cons piece pieces ih =>
    rw [List.flatten_cons] at hnumbered hnear
    obtain ⟨hfirst, hnumbered⟩ := isNumbered_append.mp hnumbered
    have hnear' := hnear.of_subset (List.subset_append_right piece pieces.flatten)
    rcases hpiece : piece with _ | ⟨p, rest⟩
    · exact ih hpath horder hnumbered hnear'
    · have hadds := adds_drawContour hpath horder hfirst
        (hnear.of_subset (List.subset_append_left piece pieces.flatten))
        (by rw [hpiece]; exact List.cons_ne_nil p rest)
      rw [hpiece] at hadds
      exact hadds.addsAll (ih hadds.path hadds.order hnumbered hnear')

omit [Scalar α] in
theorem map_position_shown (points : List (OutlinePoint α)) :
    (shown points).map (·.position) = points.map (·.position) := by
  rcases points with _ | ⟨p, _ | ⟨q, rest⟩⟩ <;> rfl

omit [Scalar α] in
theorem map_position_drawn (pieces : List (List (OutlinePoint α))) :
    (drawn pieces).flatten.map (·.position) = pieces.flatten.map (·.position) := by
  induction pieces with
  | nil => rfl
  | cons piece pieces ih =>
    rw [drawn] at ih ⊢
    rcases piece with _ | ⟨p, rest⟩
    · exact ih
    · rw [List.filter_cons_of_pos (by rfl), List.map_cons, List.flatten_cons, List.flatten_cons,
        List.map_append, List.map_append, ih, map_position_shown]

-- ---------------------------------------------------------------------------
-- Pieces
-- ---------------------------------------------------------------------------

omit [Scalar α] in
theorem flatten_cutContours {points : List (OutlinePoint α)} {previous start : ℕ} {ends : List ℕ}
    (h : AreEnds previous ends) (hstart : start ≤ previous + 1)
    (hlength : start + points.length = if ends = [] then start else pointCount ends) :
    (cutContours points start ends).flatten = points := by
  induction ends generalizing previous start points with
  | nil =>
    rw [if_pos rfl] at hlength
    exact (List.length_eq_zero_iff.mp (by omega)).symm
  | cons last ends ih =>
    obtain ⟨hle, -, hends⟩ := areEnds_cons.mp h
    rw [if_neg (List.cons_ne_nil last ends)] at hlength
    have hlast := h.le_pointCount last List.mem_cons_self
    have hrest : (cutContours (points.drop (last + 1 - start)) (last + 1) ends).flatten =
        points.drop (last + 1 - start) := by
      refine ih hends le_rfl ?_
      rw [List.length_drop]
      rcases ends with _ | ⟨next, ends⟩
      · rw [pointCount, List.getLast?_singleton] at hlength
        dsimp only at hlength
        rw [if_pos rfl]
        omega
      · rw [if_neg (List.cons_ne_nil next ends), ← pointCount_cons_cons last next ends]
        omega
    rw [cutContours, List.flatten_cons, hrest, List.take_append_drop]

-- ---------------------------------------------------------------------------
-- Points
-- ---------------------------------------------------------------------------

def numbered (flags : List PointFlags) (xs ys : List ℤ) : List (OutlinePoint α) :=
  (flags.zip (xs.zip ys)).zipIdx.map fun ((flag, x, y), i) =>
    { position := ⟨Scalar.ofInt x, Scalar.ofInt y⟩
      onCurve := flag.contains PointFlags.onCurve
      number := some i }

theorem isNumbered_numbered (flags : List PointFlags) (xs ys : List ℤ) :
    IsNumbered 0 (numbered flags xs ys : List (OutlinePoint α)) := by
  have hnumbers : (fun p : OutlinePoint α => p.number) ∘
      (fun ((flag, x, y), i) =>
        { position := ⟨Scalar.ofInt x, Scalar.ofInt y⟩
          onCurve := flag.contains PointFlags.onCurve
          number := some i } : (PointFlags × ℤ × ℤ) × ℕ → OutlinePoint α) = some ∘ Prod.snd := rfl
  rw [IsNumbered, numbered, List.map_map, hnumbers, ← List.map_map, List.zipIdx_map_snd,
    List.length_map, List.length_zipIdx]

theorem length_numbered {flags : List PointFlags} {xs ys : List ℤ} (hx : xs.length = flags.length)
    (hy : ys.length = flags.length) :
    (numbered flags xs ys : List (OutlinePoint α)).length = flags.length := by
  simp [numbered, hx, hy]

theorem map_position_numbered {flags : List PointFlags} {xs ys : List ℤ}
    (hx : xs.length = flags.length) (hy : ys.length = flags.length) :
    (numbered flags xs ys : List (OutlinePoint α)).map (·.position) =
      List.zipWith (fun x y => ⟨Scalar.ofInt x, Scalar.ofInt y⟩) xs ys := by
  refine List.ext_getElem (by simp [numbered, hx, hy]) fun i _ _ => ?_
  simp [numbered]

theorem abs_le_of_mem_sums {steps : List ℤ} (hsteps : ∀ step ∈ steps, |step| ≤ 0x8000)
    (hlength : steps.length ≤ 0x10000) : ∀ value ∈ sums 0 steps, |value| ≤ 2 ^ 31 := by
  have hbound (steps : List ℤ) (h : ∀ step ∈ steps, |step| ≤ 0x8000) (value : ℤ) :
      ∀ v ∈ sums value steps, |v| ≤ |value| + 0x8000 * steps.length := by
    induction steps generalizing value with
    | nil => nofun
    | cons step steps ih =>
      obtain ⟨hstep, hrest⟩ := List.forall_mem_cons.mp h
      have hsum := abs_add_le value step
      rw [sums, List.length_cons]
      refine List.forall_mem_cons.mpr ⟨by push_cast; omega, fun v hv => ?_⟩
      have := ih hrest (value + step) v hv
      push_cast
      omega
  intro value hvalue
  have := hbound steps hsteps 0 value hvalue
  rw [abs_zero] at this
  omega

variable [LawfulScalar α]

theorem isClose_self {a : α} {n : ℤ} (h : IsFixed a n) : Scalar.isClose a a = true := by
  rw [h.isClose h (by norm_num), sub_self]
  rfl

theorem isClose_middle {m n : ℤ} (hm : |m| ≤ 2 ^ 31) (hn : |n| ≤ 2 ^ 31) :
    Scalar.isClose (1 / 2 * (Scalar.ofInt m + Scalar.ofInt n) : α)
      (1 / 2 * (Scalar.ofInt m + Scalar.ofInt n)) = true := by
  rw [abs_le] at hm hn
  have hm' : IsFixed (Scalar.ofInt m : α) (65536 * m) :=
    Scalar.isFixed_ofInt (abs_lt.mpr ⟨by omega, by omega⟩)
  have hn' : IsFixed (Scalar.ofInt n : α) (65536 * n) :=
    Scalar.isFixed_ofInt (abs_lt.mpr ⟨by omega, by omega⟩)
  have hsum := hm'.add hn' (abs_lt.mpr ⟨by omega, by omega⟩)
  have htwice : 65536 * m + 65536 * n = 2 * (32768 * (m + n)) := by ring
  rw [htwice] at hsum
  exact isClose_self (hsum.half (abs_lt.mpr ⟨by omega, by omega⟩))

theorem areNear_of_ofInt {points : List (OutlinePoint α)}
    (h : ∀ p ∈ points, ∃ x y : ℤ, p.position = ⟨Scalar.ofInt x, Scalar.ofInt y⟩ ∧
      |x| ≤ 2 ^ 31 ∧ |y| ≤ 2 ^ 31) : AreNear points := by
  constructor
  · intro p hp
    obtain ⟨x, y, hpos, hx, hy⟩ := h p hp
    have hself {n : ℤ} (hn : |n| ≤ 2 ^ 31) :
        Scalar.isClose (Scalar.ofInt n : α) (Scalar.ofInt n) = true :=
      isClose_self (Scalar.isFixed_ofInt (lt_of_le_of_lt hn (by norm_num)))
    rw [hpos, Point.isClose, hself hx, hself hy]
    rfl
  · intro p hp q hq
    obtain ⟨x, y, hpos, hx, hy⟩ := h p hp
    obtain ⟨x', y', hpos', hx', hy'⟩ := h q hq
    rw [hpos, hpos', Point.midpoint, Point.isClose]
    dsimp only
    rw [isClose_middle hx hx', isClose_middle hy hy']
    rfl

theorem areNear_numbered {flags : List PointFlags} {xs ys : List ℤ}
    (hx : ∀ x ∈ xs, |x| ≤ 2 ^ 31) (hy : ∀ y ∈ ys, |y| ≤ 2 ^ 31) :
    AreNear (numbered flags xs ys : List (OutlinePoint α)) := by
  refine areNear_of_ofInt fun p hp => ?_
  obtain ⟨⟨⟨flag, x, y⟩, i⟩, hrow, rfl⟩ := List.mem_map.mp hp
  obtain ⟨hi, hget⟩ := List.mem_zipIdx' hrow
  have hmem : (flag, x, y) ∈ flags.zip (xs.zip ys) := by
    rw [hget]
    exact List.getElem_mem hi
  obtain ⟨hxmem, hymem⟩ := List.of_mem_zip (List.of_mem_zip hmem).2
  exact ⟨x, y, rfl, hx x hxmem, hy y hymem⟩

end Record

-- ---------------------------------------------------------------------------
-- Records
-- ---------------------------------------------------------------------------

namespace RecordLayout

open Record

variable {r : RecordLayout} {excess : Bool} {flagBytes xBytes yBytes : List UInt8}

theorem Fits.length_flags (h : r.Fits excess flagBytes xBytes yBytes) :
    r.flags.length = pointCount r.ends := h.flags.length_eq

theorem Fits.length_xSteps (h : r.Fits excess flagBytes xBytes yBytes) :
    (sums 0 r.xSteps).length = r.flags.length := by rw [length_sums, h.xSteps.length_eq]

theorem Fits.length_ySteps (h : r.Fits excess flagBytes xBytes yBytes) :
    (sums 0 r.ySteps).length = r.flags.length := by rw [length_sums, h.ySteps.length_eq]

def points (r : RecordLayout) : List (OutlinePoint α) :=
  numbered r.flags (sums 0 r.xSteps) (sums 0 r.ySteps)

/-- The points of the contours of a record; a repeated end stands for a contour without any. -/
def pieces (r : RecordLayout) : List (List (OutlinePoint α)) := cutContours r.points 0 r.ends

theorem Fits.flatten_pieces (h : r.Fits excess flagBytes xBytes yBytes) :
    (r.pieces : List (List (OutlinePoint α))).flatten = r.points := by
  refine flatten_cutContours h.ends (Nat.zero_le 1) ?_
  rw [points, length_numbered h.length_xSteps h.length_ySteps, h.length_flags, Nat.zero_add]
  split_ifs with hends
  · rw [hends]
    rfl
  · rfl

variable [LawfulScalar α]

theorem Fits.areNear_points (h : r.Fits excess flagBytes xBytes yBytes) :
    AreNear (r.points : List (OutlinePoint α)) := by
  have hcount := h.ends.pointCount_le
  rw [← h.length_flags] at hcount
  exact areNear_numbered
    (abs_le_of_mem_sums h.xSteps.bound (by rw [h.xSteps.length_eq]; exact hcount))
    (abs_le_of_mem_sums h.ySteps.bound (by rw [h.ySteps.length_eq]; exact hcount))

/-- The glyph of a record shows the points of its contours, without the contours that have none. -/
theorem Fits.outlines_glyph (h : r.Fits excess flagBytes xBytes yBytes) :
    (r.glyph : Glyph α).outlines = drawn r.pieces := by
  have hflatten := h.flatten_pieces (α := α)
  have hadds := addsAll_drawContour (b := ({ order := .quadratic } : Builder α)) (n := 0) rfl rfl
    (hflatten ▸ isNumbered_numbered _ _ _) (hflatten ▸ h.areNear_points)
  have houtlines : (r.figure : Figure α).contours.toList.map (r.figure : Figure α).outlinePoints =
      drawn r.pieces := hadds.map_outlinePoints
  have hglyph : (r.glyph : Glyph α).figures =
      if (r.figure : Figure α).isEmpty then [] else [r.figure] := rfl
  rw [← houtlines, Glyph.outlines, Glyph.contours, hglyph]
  split_ifs with hempty
  · have hnil : (r.figure : Figure α).contours = #[] := Array.isEmpty_iff.mp hempty
    rw [hnil]
    rfl
  · rw [List.flatMap_singleton, List.map_map]
    rfl

theorem Fits.numberedPoints_glyph (h : r.Fits excess flagBytes xBytes yBytes) :
    (r.glyph : Glyph α).numberedPoints =
      List.zipWith (fun x y => ⟨Scalar.ofInt x, Scalar.ofInt y⟩) (sums 0 r.xSteps)
        (sums 0 r.ySteps) := by
  rw [Glyph.numberedPoints_eq, h.outlines_glyph, map_position_drawn, h.flatten_pieces]
  exact map_position_numbered h.length_xSteps h.length_ySteps

end RecordLayout

namespace Record

/-- A decoded outline has the points of its record in their order, each at the sum of the steps up
to it, and no others. -/
theorem numberedPoints_decode {data : List UInt8} (hne : data ≠ [])
    (hcontours : 0 ≤ BigEndian.signed (data.take 2))
    (hbuilt : ∀ e ∈ (decode data : Decoded Error Float).diagnostics, e = .repeatCountTooLarge) :
    (∃ (r : RecordLayout) (excess : Bool), r.Describes excess data) ∧
      ∀ (r : RecordLayout) (excess : Bool), r.Describes excess data →
        (decode data : Decoded Error Float).glyph.numberedPoints.length = pointCount r.ends ∧
        ∀ i < pointCount r.ends, (decode data : Decoded Error Float).glyph.numberedPoints[i]? =
          some ⟨Float.ofInt (r.xSteps.take (i + 1)).sum,
            Float.ofInt (r.ySteps.take (i + 1)).sum⟩ := by
  refine ⟨RecordLayout.describes_of_decode hne hcontours hbuilt, fun r excess hr => ?_⟩
  rw [RecordLayout.decode_of_describes hr]
  obtain ⟨flagBytes, xBytes, yBytes, rest, h, -⟩ := hr
  dsimp only
  rw [h.numberedPoints_glyph, List.length_zipWith, h.length_xSteps, h.length_ySteps, min_self,
    h.length_flags]
  refine ⟨rfl, fun i hi => ?_⟩
  rw [← h.length_flags] at hi
  have hx := h.length_xSteps ▸ hi
  have hy := h.length_ySteps ▸ hi
  rw [List.getElem?_zipWith, List.getElem?_eq_getElem hx, List.getElem?_eq_getElem hy,
    getElem_sums, getElem_sums, zero_add, zero_add]
  rfl

/-- A contour that starts off the curve and stops twice at one point, one that is nowhere on the
curve, one of a single point, and one without points. The last count of flags goes too far. -/
def motley : List UInt8 :=
  [0, 4, 0, 0, 0, 0, 0, 52, 0, 52, 0, 2, 0, 5, 0, 6, 0, 6, 0, 0,
    0x36, 0x37, 0x31, 0x3e, 2, 0x3e, 1,
    10, 20, 5, 5, 5, 7, 10, 20, 5, 5, 5, 7]

theorem numberedPoints_motley :
    (∃ (r : RecordLayout) (excess : Bool), r.Describes excess motley) ∧
      ∀ (r : RecordLayout) (excess : Bool), r.Describes excess motley →
        (decode motley : Decoded Error Float).glyph.numberedPoints.length = pointCount r.ends ∧
        ∀ i < pointCount r.ends, (decode motley : Decoded Error Float).glyph.numberedPoints[i]? =
          some ⟨Float.ofInt (r.xSteps.take (i + 1)).sum,
            Float.ofInt (r.ySteps.take (i + 1)).sum⟩ :=
  numberedPoints_decode (by decide) (by decide +kernel) (by decide +kernel)

example : ((decode motley : Decoded Error Float).glyph.numberedPoints ==
    [⟨10, 10⟩, ⟨30, 30⟩, ⟨30, 30⟩, ⟨35, 35⟩, ⟨40, 40⟩, ⟨45, 45⟩, ⟨52, 52⟩]) = true := by
  decide +kernel

end Record

end Letterform
