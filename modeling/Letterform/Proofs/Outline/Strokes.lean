import Letterform.Proofs.Outline.WellFormed

/-!
# The strokes of a contour

What has to be drawn of a contour are the segments from each of its knots to the next one, and the
one that leads back to the first unless it is a line. The strokes are what this leaves of the
segments of any contour.
-/

namespace Letterform

variable {α : Type} [Scalar α]

namespace Figure

def stroke (f : Figure α) (s : ℕ) (isClosing : Bool) : Stroke α where
  start := f.knot (f.segment s).start
  stop := f.knot (f.segment s).stop
  order := (f.segment s).order
  isLine := (f.segment s).isLine
  isClosing

/-- The stroke of a segment at some place of its contour, unless it is a line that closes it. -/
def strokeAt (f : Figure α) (isClosing : ℕ → Bool) (segment : ℕ × ℕ) : Option (Stroke α) :=
  if isClosing segment.2 && (f.segment segment.1).isLine then none
  else some (f.stroke segment.1 (isClosing segment.2))

theorem strokes_eq_filterMap (f : Figure α) (c : Contour) :
    f.strokes c = (f.contourSegments c).zipIdx.filterMap
      (f.strokeAt fun i => f.isClosed c && i + 1 == (f.contourSegments c).length) := rfl

theorem filterMap_strokeAt (f : Figure α) (isClosing : ℕ → Bool) {segments : List ℕ} {n : ℕ}
    (h : ∀ i < n + segments.length, isClosing i = false) :
    (segments.zipIdx n).filterMap (f.strokeAt isClosing) =
      segments.map fun s => f.stroke s false := by
  induction segments generalizing n with
  | nil => rfl
  | cons s segments ih =>
    rw [List.length_cons] at h
    have hfirst : f.strokeAt isClosing (s, n) = some (f.stroke s false) := by
      simp [strokeAt, h n (by omega)]
    rw [List.zipIdx_cons, List.filterMap_cons_some hfirst, ih fun i hi => h i (by omega)]
    rfl

-- ---------------------------------------------------------------------------
-- Segments that are drawn
-- ---------------------------------------------------------------------------

/-- The segments of a contour up to the one that closes it, if it is closed. -/
def innerSegments (f : Figure α) (c : Contour) : List ℕ :=
  if f.isClosed c then (f.contourSegments c).dropLast else f.contourSegments c

/-- The segment that closes a contour, unless there is none or it is a line. -/
def closingSegments (f : Figure α) (c : Contour) : List ℕ :=
  if f.isClosed c then
    (f.contourSegments c).getLast?.toList.filter fun s => !(f.segment s).isLine
  else []

def drawnStrokes (f : Figure α) (c : Contour) : List (Stroke α) :=
  (f.innerSegments c).map (f.stroke · false) ++ (f.closingSegments c).map (f.stroke · true)

theorem strokes_eq (f : Figure α) (c : Contour) : f.strokes c = f.drawnStrokes c := by
  rw [strokes_eq_filterMap, drawnStrokes, innerSegments, closingSegments]
  generalize f.contourSegments c = segments
  cases f.isClosed c with
  | false =>
    rw [filterMap_strokeAt f (fun i => false && i + 1 == segments.length) fun _ _ =>
      Bool.false_and _]
    simp
  | true =>
    rcases List.eq_nil_or_concat segments with rfl | ⟨inner, s, rfl⟩
    · rfl
    rw [List.concat_eq_append]
    have hfront : ∀ i < 0 + inner.length, (true && i + 1 == (inner ++ [s]).length) = false := by
      intro i hi
      simp
      omega
    rw [List.zipIdx_append, List.filterMap_append, filterMap_strokeAt f _ hfront]
    cases hline : (f.segment s).isLine <;> simp [strokeAt, hline]

-- ---------------------------------------------------------------------------
-- Contours that are traced
-- ---------------------------------------------------------------------------

def leavingSegment (f : Figure α) (i : ℕ) : ℕ := (f.knot i).segmentOut.getD 0

/-- The strokes between the knots of a contour in the order of the table. -/
def innerStrokes (f : Figure α) (c : Contour) : List (Stroke α) :=
  (List.range' c.first (c.last - c.first)).map fun i => f.stroke (f.leavingSegment i) false

/-- The stroke that leads back to the first knot, unless there is none or it is a line. -/
def closingStroke (f : Figure α) (c : Contour) : List (Stroke α) :=
  match (f.knot c.last).segmentOut with
  | none => []
  | some s => if (f.segment s).isLine then [] else [f.stroke s true]

variable {f : Figure α} {c : Contour}

theorem IsPath.joins_leavingSegment {first last i : ℕ} (h : f.IsPath first last)
    (hfirst : first ≤ i) (hlast : i < last) : f.Joins (f.leavingSegment i) i (i + 1) := by
  obtain ⟨s, hs⟩ := h.joins i hfirst hlast
  rw [leavingSegment, hs.segmentOut]
  exact hs

theorem IsTraced.contourSegments (h : f.IsTraced c) :
    f.contourSegments c =
      (List.range' c.first (c.last - c.first)).map f.leavingSegment ++
        (f.knot c.last).segmentOut.toList := by
  have hle := h.path.le
  have hcount : c.last + 1 - c.first = c.last - c.first + 1 := by omega
  have hlast : c.first + 1 * (c.last - c.first) = c.last := by omega
  have hinner : ∀ i ∈ List.range' c.first (c.last - c.first),
      (f.knot i).segmentOut = some (f.leavingSegment i) := by
    intro i hi
    obtain ⟨hfirst, hlt⟩ := List.mem_range'_1.mp hi
    exact (h.path.joins_leavingSegment hfirst (by omega)).segmentOut
  rw [Figure.contourSegments, h.contourKnots, hcount, List.range'_concat, List.filterMap_append,
    hlast, List.filterMap_congr hinner, List.filterMap_eq_map']
  cases hlast : (f.knot c.last).segmentOut <;> simp [hlast]

theorem IsTraced.strokes (h : f.IsTraced c) :
    f.strokes c = f.innerStrokes c ++ f.closingStroke c := by
  have hinner : ((List.range' c.first (c.last - c.first)).map f.leavingSegment).map
      (fun s => f.stroke s false) = f.innerStrokes c := List.map_map
  rw [strokes_eq, drawnStrokes, innerSegments, closingSegments, h.contourSegments, closingStroke,
    ← hinner]
  generalize (List.range' c.first (c.last - c.first)).map f.leavingSegment = inner
  rcases h.ends with hloose | ⟨s, hs⟩
  · have hopen : f.isClosed c = false := by rw [isClosed, hloose.segmentOut]
    simp [hopen, hloose.segmentOut]
  · have hclosed : f.isClosed c = true := h.isClosed_iff.mpr ⟨s, hs⟩
    rw [hclosed, hs.segmentOut]
    cases hline : (f.segment s).isLine <;> simp [hline]

end Figure

end Letterform
