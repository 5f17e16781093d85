import Letterform.Proofs.Geometry.Bounds
import Letterform.Proofs.Number.Whole
import Letterform.Proofs.Outline.Bends
import Letterform.Proofs.Outline.LeftOut
import Letterform.Proofs.Record.RoundTrip

/-!
# Boxes in the headers of simple records

The box in the header of a simple record is taken from the points that are written. It is the
smallest box around all anchors and control points of the glyph if their coordinates are whole: a
point that is left out of the record lies halfway between two that stay.
-/

namespace Letterform

open LawfulScalar (Denotes)
open Record (IsWord)

-- ---------------------------------------------------------------------------
-- The points of a record and those of its glyph
-- ---------------------------------------------------------------------------

section Points

variable {α : Type} [Scalar α]

namespace Glyph

theorem mem_outlines {g : Glyph α} {q : OutlinePoint α} : q ∈ g.outlines.flatten ↔
    ∃ f ∈ g.figures, ∃ c ∈ f.contours, q ∈ f.outlinePoints c := by
  simp only [outlines, contours, List.mem_flatten, List.mem_map, List.mem_flatMap,
    Array.mem_toList_iff]
  constructor
  · rintro ⟨_, ⟨_, ⟨f, hf, c, hc, rfl⟩, rfl⟩, hq⟩
    exact ⟨f, hf, c, hc, hq⟩
  · rintro ⟨f, hf, c, hc, hq⟩
    exact ⟨_, ⟨_, ⟨f, hf, c, hc, rfl⟩, rfl⟩, hq⟩

theorem mem_numberedPoints {g : Glyph α} {p : Point α} : p ∈ g.numberedPoints ↔
    ∃ f ∈ g.figures, ∃ c ∈ f.contours, ∃ q ∈ f.outlinePoints c, q.position = p := by
  rw [numberedPoints_eq, List.mem_map]
  simp only [mem_outlines]
  constructor
  · rintro ⟨q, ⟨f, hf, c, hc, hq⟩, hp⟩
    exact ⟨f, hf, c, hc, q, hq, hp⟩
  · rintro ⟨f, hf, c, hc, q, hq, hp⟩
    exact ⟨q, ⟨f, hf, c, hc, hq⟩, hp⟩

theorem numberedPoints_ne_nil {g : Glyph α} (h : g.hasContours = true) :
    g.numberedPoints ≠ [] := by
  rw [hasContours, Bool.not_eq_true', List.all_eq_false] at h
  obtain ⟨f, hf, hcontours⟩ := h
  rw [Bool.not_eq_true, Figure.isEmpty, Array.isEmpty_eq_false_iff_exists_mem] at hcontours
  obtain ⟨c, hc⟩ := hcontours
  obtain ⟨q, hq⟩ := List.exists_mem_of_ne_nil _ (f.outlinePoints_ne_nil c)
  exact List.ne_nil_of_mem (mem_numberedPoints.mpr ⟨f, hf, c, hc, q, hq, rfl⟩)

variable {g : Glyph α} {p : Point α} (hdrawn : ∀ f ∈ g.figures, f.IsDrawn)
  (hcurves : g.hasCurves .cubic = false)
include hdrawn hcurves

theorem mem_points : p ∈ g.points ↔
    ∃ f ∈ g.figures, ∃ c ∈ f.contours, ∃ q ∈ f.allPoints c, q.position = p := by
  have hfigure : ∀ f ∈ g.figures, f.hasCurves .cubic = false := by
    simpa [hasCurves] using hcurves
  rw [points, List.mem_flatMap]
  exact exists_congr fun f => and_congr_right fun hf => (hdrawn f hf).mem_points (hfigure f hf)

theorem mem_points_of_mem_numberedPoints (h : p ∈ g.numberedPoints) : p ∈ g.points := by
  obtain ⟨f, hf, c, hc, q, hq, rfl⟩ := mem_numberedPoints.mp h
  exact (mem_points hdrawn hcurves).mpr
    ⟨f, hf, c, hc, q, Figure.mem_allPoints_of_mem_outlinePoints hq, rfl⟩

theorem mem_numberedPoints_or (h : p ∈ g.points) : p ∈ g.numberedPoints ∨
    ∃ before ∈ g.numberedPoints, ∃ after ∈ g.numberedPoints,
      (before.midpoint after).isClose p = true := by
  obtain ⟨f, hf, c, hc, q, hq, rfl⟩ := (mem_points hdrawn hcurves).mp h
  have hmem {q : OutlinePoint α} (hq : q ∈ f.outlinePoints c) : q.position ∈ g.numberedPoints :=
    mem_numberedPoints.mpr ⟨f, hf, c, hc, q, hq, rfl⟩
  rcases Figure.mem_outlinePoints_or hq with hq | ⟨before, hbefore, after, hafter, hclose⟩
  · exact .inl (hmem hq)
  · exact .inr ⟨_, hmem hbefore, _, hmem hafter, hclose⟩

end Glyph

theorem Record.numberedPoints_of_ofGlyph {g : Glyph α} (h : SimpleRecord.ofGlyph g = .ok none) :
    g.numberedPoints = [] := by
  obtain ⟨⟨points, ends⟩, hadd, h⟩ := bind_ok.mp h
  obtain ⟨hpoints, -⟩ := SimpleRecord.addContours_ok (SimpleRecord.outlines_ne_nil g) hadd
  dsimp only at h
  split_ifs at h with hempty
  · have hlength := congrArg List.length (hpoints.symm.trans (List.isEmpty_iff.mp hempty))
    rw [List.append_nil, List.length_reverse, SimpleRecord.length_steppedAll, List.length_map,
      List.length_nil, List.length_eq_zero_iff] at hlength
    rw [Glyph.numberedPoints_eq, hlength, List.map_nil]
  all_goals cases h

end Points

-- ---------------------------------------------------------------------------
-- Boxes of simple records
-- ---------------------------------------------------------------------------

namespace Record.IsWord

theorem magnitude_le {n : ℤ} (h : IsWord n) : |n| ≤ 0x8000 := by
  obtain ⟨hlow, hhigh⟩ := h
  exact abs_le.mpr ⟨by omega, by omega⟩

theorem toInt32_roundUp {x : Float} {n : ℤ} (h : IsWord (Scalar.toInt32 (Scalar.roundUp x)))
    (hx : Denotes x n) : Scalar.toInt32 (Scalar.roundUp x) = n := by
  obtain ⟨hlow, hhigh⟩ := h
  exact Double.toInt32_roundUp_whole hx (by omega) (by omega)

end Record.IsWord

namespace Double

/-- Along one axis the numbers that are written span all of them, if the others lie halfway between
two of these. -/
theorem spans_of_written {written all : List Float} {low high : ℤ}
    (hmem : ∀ x ∈ written, x ∈ all) (hwhole : ∀ x ∈ all, ∃ n : ℤ, StandsFor x n)
    (hword : ∀ x ∈ written, IsWord (Scalar.toInt32 (Scalar.roundUp x)))
    (hlow : (written.map fun x => Scalar.toInt32 (Scalar.roundUp x)).min? = some low)
    (hhigh : (written.map fun x => Scalar.toInt32 (Scalar.roundUp x)).max? = some high)
    (hor : ∀ x ∈ all, x ∈ written ∨
      ∃ u ∈ written, ∃ v ∈ written, Scalar.isClose (1 / 2 * (u + v)) x = true) :
    Scalar.Spans all low high := by
  have hvalue (x : Float) (hx : x ∈ written) :
      StandsFor x (Scalar.toInt32 (Scalar.roundUp x)) := by
    obtain ⟨n, hn⟩ := hwhole x (hmem x hx)
    rwa [(hword x hx).toInt32_roundUp hn]
  obtain ⟨hlowMem, hleast⟩ := List.min?_eq_some_iff.mp hlow
  obtain ⟨hhighMem, hgreatest⟩ := List.max?_eq_some_iff.mp hhigh
  rw [List.forall_mem_map] at hleast hgreatest
  refine ⟨fun x hx => ?_, ?_, ?_⟩
  · rcases hor x hx with hx | ⟨u, hu, v, hv, hclose⟩
    · exact ⟨_, hvalue x hx, hleast x hx, hgreatest x hx⟩
    · obtain ⟨n, hn⟩ := hwhole x hx
      have hmiddle := two_mul_eq_of_isClose (hvalue u hu) (hvalue v hv) hn
        ((hword u hu).magnitude_le.trans_lt (by norm_num))
        ((hword v hv).magnitude_le.trans_lt (by norm_num)) hclose
      have hu' := And.intro (hleast u hu) (hgreatest u hu)
      have hv' := And.intro (hleast v hv) (hgreatest v hv)
      exact ⟨n, hn, by omega, by omega⟩
  · obtain ⟨x, hx, rfl⟩ := List.mem_map.mp hlowMem
    exact ⟨x, hmem x hx, hvalue x hx⟩
  · obtain ⟨x, hx, rfl⟩ := List.mem_map.mp hhighMem
    exact ⟨x, hmem x hx, hvalue x hx⟩

end Double

/-- A glyph without components that is drawn by straight lines and quadratic curves. All coordinates
in it are whole. -/
structure Glyph.IsWhole (g : Glyph Float) : Prop where
  components : g.components = []
  drawn : ∀ f ∈ g.figures, f.IsDrawn
  curves : g.hasCurves .cubic = false
  whole : ∀ p ∈ g.points, ∃ x y : ℤ, Denotes p.x x ∧ Denotes p.y y

namespace Record

def headerBox (bytes : List UInt8) : Rect ℤ :=
  let side (i : ℕ) := BigEndian.signed ((bytes.drop (2 * i)).take 2)
  ⟨side 1, side 2, side 3, side 4⟩

theorem headerBox_headerBytes {contours left lower right upper : ℤ} (hleft : IsWord left)
    (hlower : IsWord lower) (hright : IsWord right) (hupper : IsWord upper)
    (rest : List UInt8) :
    headerBox (headerBytes contours left lower right upper ++ rest) =
      ⟨left, lower, right, upper⟩ := by
  have htwo (n : ℤ) : ∃ a b, BigEndian.encode 2 n = [a, b] :=
    List.length_eq_two.mp (BigEndian.length_encode 2 n)
  have hsigned {n : ℤ} (h : IsWord n) : BigEndian.signed (BigEndian.encode 2 n) = n :=
    BigEndian.signed_encode 2 (by have := h.1; omega) (by have := h.2; omega)
  obtain ⟨_, _, h0⟩ := htwo contours
  obtain ⟨_, _, h1⟩ := htwo left
  obtain ⟨_, _, h2⟩ := htwo lower
  obtain ⟨_, _, h3⟩ := htwo right
  obtain ⟨_, _, h4⟩ := htwo upper
  have hbox : headerBox (headerBytes contours left lower right upper ++ rest) =
      ⟨BigEndian.signed (BigEndian.encode 2 left), BigEndian.signed (BigEndian.encode 2 lower),
        BigEndian.signed (BigEndian.encode 2 right),
        BigEndian.signed (BigEndian.encode 2 upper)⟩ := by
    rw [headerBytes, h0, h1, h2, h3, h4]
    rfl
  rw [hbox, hsigned hleft, hsigned hlower, hsigned hright, hsigned hupper]

theorem IsLayout.of_encode {g : Glyph Float} (h : g.IsWhole) (hcontours : g.hasContours = true)
    {e : Encoder Float} {id : GlyphId} {source : GlyphSource Float} {record : List UInt8}
    (hencode : (e.encode id g source).1 = .ok record) : ∃ l, IsLayout g record l := by
  rw [encode_simple h.components h.curves] at hencode
  rcases hrecord : SimpleRecord.ofGlyph g with error | _ | r
  · rw [hrecord] at hencode
    cases hencode
  · exact absurd (numberedPoints_of_ofGlyph hrecord) (Glyph.numberedPoints_ne_nil hcontours)
  · rw [hrecord] at hencode
    cases hencode
    exact exists_layout hrecord

variable {g : Glyph Float} {record : List UInt8} {l : RecordLayout}

theorem spans_points (h : g.IsWhole) {axis : Point Float → Float}
    {side : RecordPoint → ℤ} {low high : ℤ}
    (haxis : ∀ p q r : Point Float, (p.midpoint q).isClose r = true →
      Scalar.isClose (1 / 2 * (axis p + axis q)) (axis r) = true)
    (hwhole : ∀ p ∈ g.points, ∃ n : ℤ, Denotes (axis p) n)
    (hwritten : (writtenPoints g).map side =
      g.numberedPoints.map fun p => Scalar.toInt32 (Scalar.roundUp (axis p)))
    (hword : ∀ p ∈ writtenPoints g, IsWord (side p))
    (hlow : ((writtenPoints g).map side).min? = some low)
    (hhigh : ((writtenPoints g).map side).max? = some high) :
    Scalar.Spans (g.points.map axis) low high := by
  have hrounded : (g.numberedPoints.map axis).map (fun x => Scalar.toInt32 (Scalar.roundUp x)) =
      (writtenPoints g).map side := by
    rw [hwritten, List.map_map]
    rfl
  have hmem : ∀ x ∈ g.numberedPoints.map axis, x ∈ g.points.map axis :=
    List.forall_mem_map.mpr fun p hp => List.mem_map_of_mem
      (Glyph.mem_points_of_mem_numberedPoints h.drawn h.curves hp)
  refine Double.spans_of_written hmem ?_ ?_ (hrounded ▸ hlow) (hrounded ▸ hhigh) ?_
  · exact List.forall_mem_map.mpr hwhole
  · rw [← List.forall_mem_map (f := fun x => Scalar.toInt32 (Scalar.roundUp x)), hrounded]
    exact List.forall_mem_map.mpr hword
  · refine List.forall_mem_map.mpr fun p hp => ?_
    rcases Glyph.mem_numberedPoints_or h.drawn h.curves hp with
      hp | ⟨before, hbefore, after, hafter, hclose⟩
    · exact .inl (List.mem_map_of_mem hp)
    · exact .inr ⟨_, List.mem_map_of_mem hbefore, _, List.mem_map_of_mem hafter,
        haxis before after p hclose⟩

/-- The box of a simple record is the smallest one around the outline if its coordinates are
whole. -/
theorem IsLayout.isAround_headerBox (hl : IsLayout g record l) (h : g.IsWhole) :
    (headerBox record).IsAround g.points ∧
      ∀ n ∈ [(headerBox record).x0, (headerBox record).y0, (headerBox record).x1,
        (headerBox record).y1], IsWord n := by
  obtain ⟨flagBytes, xBytes, yBytes, rest, hfits, hbytes⟩ := hl.describes
  have hbox : headerBox record = ⟨l.left, l.lower, l.right, l.upper⟩ := by
    rw [hbytes, RecordLayout.bytes, List.append_assoc]
    exact headerBox_headerBytes hfits.left hfits.lower hfits.right hfits.upper _
  rw [hbox]
  refine ⟨⟨?_, ?_⟩, ?_⟩
  · refine spans_points h (fun p q r hclose => (Bool.and_eq_true_iff.mp hclose).1)
      (fun p hp => ?_) ?_ (fun p hp => (hl.writable p hp).1) hl.left hl.right
    · obtain ⟨x, -, hx, -⟩ := h.whole p hp
      exact ⟨x, hx⟩
    · rw [map_x_writtenPoints, Glyph.numberedPoints_eq, List.map_map]
      rfl
  · refine spans_points h (fun p q r hclose => (Bool.and_eq_true_iff.mp hclose).2)
      (fun p hp => ?_) ?_ (fun p hp => (hl.writable p hp).2.1) hl.lower hl.upper
    · obtain ⟨-, y, -, hy⟩ := h.whole p hp
      exact ⟨y, hy⟩
    · rw [map_y_writtenPoints, Glyph.numberedPoints_eq, List.map_map]
      rfl
  · simp only [List.forall_mem_cons]
    exact ⟨hfits.left, hfits.lower, hfits.right, hfits.upper, List.forall_mem_nil _⟩

end Record

end Letterform
