import Letterform.Proofs.Outline.Numbering
import Letterform.Proofs.Outline.Transform

/-!
# Which points a record leaves out

Only a point on the curve between two control points is left out of a record, and the control points
stay. Whether it is left out depends on where the three of them lie, and so may change when a figure
is moved; what a contour has for points does not.
-/

namespace Letterform

variable {α : Type}

theorem perm_rotateLeft {β : Type} (xs : List β) (n : ℕ) : (xs.rotateLeft n).Perm xs := by
  unfold List.rotateLeft
  dsimp only
  split_ifs
  · exact .refl _
  · refine List.perm_append_comm.trans ?_
    rw [List.take_append_drop]

theorem perm_rotateRight {β : Type} (xs : List β) (n : ℕ) : (xs.rotateRight n).Perm xs := by
  unfold List.rotateRight
  dsimp only
  split_ifs
  · exact .refl _
  · refine List.perm_append_comm.trans ?_
    rw [List.take_append_drop]

variable [Scalar α]

namespace OutlinePoint

variable {closed : Bool} {points : List (OutlinePoint α)} {p : OutlinePoint α}

omit [Scalar α] in
theorem perm_turnToLowest (points : List (OutlinePoint α)) :
    (turnToLowest points).Perm points := by
  unfold turnToLowest
  split
  · exact .refl _
  · exact perm_rotateLeft _ _

omit [Scalar α] in
/-- Every point of a sequence with the one before it and the one after it; the first and the last one
count as neighbours. -/
def rows (points : List (OutlinePoint α)) :
    List (OutlinePoint α × OutlinePoint α × OutlinePoint α) :=
  points.rotateRight.zip (points.zip points.rotateLeft)

omit [Scalar α] in
@[simp] theorem length_rows : (rows points).length = points.length := by
  simp [rows, (perm_rotateLeft points 1).length_eq, (perm_rotateRight points 1).length_eq]

omit [Scalar α] in
theorem mem_of_mem_rows {row : OutlinePoint α × OutlinePoint α × OutlinePoint α}
    (h : row ∈ rows points) : row.1 ∈ points ∧ row.2.1 ∈ points ∧ row.2.2 ∈ points := by
  obtain ⟨hbefore, hrest⟩ := List.of_mem_zip h
  obtain ⟨hpoint, hafter⟩ := List.of_mem_zip hrest
  exact ⟨(perm_rotateRight points 1).mem_iff.mp hbefore, hpoint,
    (perm_rotateLeft points 1).mem_iff.mp hafter⟩

omit [Scalar α] in
theorem map_point_rows (points : List (OutlinePoint α)) :
    (rows points).map (·.2.1) = points := by
  have hlength := (perm_rotateRight points 1).length_eq
  have hlength' := (perm_rotateLeft points 1).length_eq
  refine List.ext_getElem (by simp) fun i _ _ => ?_
  simp [rows]

def leftOut (closed : Bool) (points : List (OutlinePoint α)) : List Bool :=
  (rows points).zipIdx.map fun ((before, point, after), i) =>
    (closed || (0 < i && i + 1 < points.length)) && isImplied before point after

@[simp] theorem length_leftOut : (leftOut closed points).length = points.length := by
  simp [leftOut]

omit [Scalar α] in
theorem map_point_zipIdx_rows (points : List (OutlinePoint α)) :
    (rows points).zipIdx.map (·.1.2.1) = points := by
  conv_rhs => rw [← map_point_rows points, ← List.zipIdx_map_fst 0 (rows points), List.map_map]
  rfl

theorem dropImplied_eq (closed : Bool) (points : List (OutlinePoint α)) :
    dropImplied closed points =
      ((points.zip (leftOut closed points)).filter (!·.2)).map Prod.fst := by
  have hrows : points.zip (leftOut closed points) = (rows points).zipIdx.map fun x =>
      (x.1.2.1, (closed || (0 < x.2 && x.2 + 1 < points.length)) &&
        isImplied x.1.1 x.1.2.1 x.1.2.2) := by
    rw [leftOut, ← List.zip_map', map_point_zipIdx_rows]
  rw [hrows, List.filter_map, List.map_map, ← List.filterMap_eq_map, List.filterMap_filter]
  refine List.filterMap_congr fun x _ => ?_
  cases h : (closed || (0 < x.2 && x.2 + 1 < points.length)) &&
    isImplied x.1.1 x.1.2.1 x.1.2.2 <;> simp [h]

theorem length_dropImplied (closed : Bool) (points : List (OutlinePoint α)) :
    (dropImplied closed points).length = (leftOut closed points).count false := by
  have hsnd : (points.zip (leftOut closed points)).map Prod.snd = leftOut closed points :=
    List.map_snd_zip (by simp)
  conv_rhs => rw [← hsnd, List.count_eq_countP, List.countP_map]
  rw [dropImplied_eq, List.length_map, ← List.countP_eq_length_filter]
  refine List.countP_congr fun x _ => ?_
  cases h : x.2 <;> simp [h]

theorem mem_dropImplied : p ∈ dropImplied closed points ↔
    (p, false) ∈ points.zip (leftOut closed points) := by
  simp [dropImplied_eq]

theorem mem_of_mem_dropImplied (h : p ∈ dropImplied closed points) : p ∈ points :=
  (List.of_mem_zip (mem_dropImplied.mp h)).1

theorem exists_getElem_of_leftOut {i : ℕ} {out : Bool}
    (h : (leftOut closed points)[i]? = some out) :
    ∃ q, points[i]? = some q ∧ (q, out) ∈ points.zip (leftOut closed points) := by
  obtain ⟨hi, rfl⟩ := List.getElem?_eq_some_iff.mp h
  have hi' : i < points.length := by simpa using hi
  exact ⟨points[i], List.getElem?_eq_getElem hi',
    List.mem_iff_getElem.mpr ⟨i, by simpa using hi', List.getElem_zip⟩⟩

theorem exists_isImplied (h : (p, true) ∈ points.zip (leftOut closed points)) :
    ∃ before ∈ points, ∃ after ∈ points, isImplied before p after = true := by
  obtain ⟨i, hi, heq⟩ := List.mem_iff_getElem.mp h
  have hi' : i < (rows points).length := by simpa using hi
  obtain ⟨hbefore, -, hafter⟩ := mem_of_mem_rows (List.getElem_mem hi')
  refine ⟨_, hbefore, _, hafter, ?_⟩
  obtain ⟨hpoint, hleft⟩ := Prod.mk.inj (List.getElem_zip.symm.trans heq)
  have hrow : (rows points)[i].2.1 = p := by
    rw [← hpoint]
    simp [rows]
  simp only [leftOut, List.getElem_map, List.getElem_zipIdx, Bool.and_eq_true] at hleft
  rw [← hrow]
  exact hleft.2

theorem mem_dropImplied_or (closed : Bool) (hp : p ∈ points) :
    p ∈ dropImplied closed points ∨
      ∃ before ∈ points, ∃ after ∈ points, isImplied before p after = true := by
  obtain ⟨i, hi, rfl⟩ := List.getElem_of_mem hp
  obtain ⟨out, hout⟩ : ∃ out, (leftOut closed points)[i]? = some out :=
    ⟨_, List.getElem?_eq_getElem (by simpa using hi)⟩
  obtain ⟨q, hq, hmem⟩ := exists_getElem_of_leftOut hout
  obtain rfl : points[i] = q := Option.some.inj ((List.getElem?_eq_getElem hi).symm.trans hq)
  cases out with
  | false => exact .inl (mem_dropImplied.mpr hmem)
  | true => exact .inr (exists_isImplied hmem)

theorem isImplied_iff {before after : OutlinePoint α} : isImplied before p after = true ↔
    p.onCurve = true ∧ p.number = none ∧ before.onCurve = false ∧ after.onCurve = false ∧
      (before.position.midpoint after.position).isClose p.position = true := by
  simp only [isImplied, Bool.and_eq_true, Bool.not_eq_true', Option.isNone_iff_eq_none, and_assoc]

/-- What stays the same about a point wherever it is moved. -/
def mark (p : OutlinePoint α) : Bool × Option ℕ := (p.onCurve, p.number)

end OutlinePoint

namespace Figure

open OutlinePoint (mark)

variable (f : Figure α) (t : Affine α)

/-- The points of a contour before any of them is left out. -/
def allPoints (c : Contour) : List (OutlinePoint α) := (f.contourKnots c).flatMap f.pointsFrom

def leftOut (c : Contour) : List Bool := OutlinePoint.leftOut (f.isClosed c) (f.allPoints c)

theorem perm_outlinePoints (c : Contour) :
    (f.outlinePoints c).Perm (OutlinePoint.dropImplied (f.isClosed c) (f.allPoints c)) := by
  unfold outlinePoints
  dsimp only
  split
  · exact OutlinePoint.perm_turnToLowest _
  · exact .refl _

theorem length_outlinePoints (c : Contour) :
    (f.outlinePoints c).length = (f.leftOut c).count false := by
  rw [(f.perm_outlinePoints c).length_eq, OutlinePoint.length_dropImplied, leftOut]

variable {f} in
theorem mem_allPoints_of_mem_outlinePoints {c : Contour} {q : OutlinePoint α}
    (h : q ∈ f.outlinePoints c) : q ∈ f.allPoints c :=
  OutlinePoint.mem_of_mem_dropImplied ((f.perm_outlinePoints c).mem_iff.mp h)

variable {f} in
theorem mem_outlinePoints_or {c : Contour} {q : OutlinePoint α}
    (h : q ∈ f.allPoints c) : q ∈ f.outlinePoints c ∨
      ∃ before ∈ f.outlinePoints c, ∃ after ∈ f.outlinePoints c,
        (before.position.midpoint after.position).isClose q.position = true := by
  have hmem (q : OutlinePoint α) := (f.perm_outlinePoints c).mem_iff (a := q)
  have hoff {q : OutlinePoint α} (hq : q ∈ f.allPoints c) (hoff : q.onCurve = false) :
      q ∈ f.outlinePoints c := by
    rcases OutlinePoint.mem_dropImplied_or (f.isClosed c) hq with hkept | ⟨_, _, _, _, himplied⟩
    · exact (hmem q).mpr hkept
    · rw [(OutlinePoint.isImplied_iff.mp himplied).1] at hoff
      cases hoff
  rcases OutlinePoint.mem_dropImplied_or (f.isClosed c) h with
    hkept | ⟨before, hbefore, after, hafter, himplied⟩
  · exact .inl ((hmem q).mpr hkept)
  · obtain ⟨-, -, hbefore', hafter', hclose⟩ := OutlinePoint.isImplied_iff.mp himplied
    exact .inr ⟨before, hoff hbefore hbefore', after, hoff hafter hafter', hclose⟩

-- ---------------------------------------------------------------------------
-- Figures that are moved
-- ---------------------------------------------------------------------------

theorem knot_transform_fields (i : ℕ) :
    ((f.transform t).knot i).segmentOut = (f.knot i).segmentOut ∧
      ((f.transform t).knot i).number = (f.knot i).number ∧
      ((f.transform t).knot i).controlNumber = (f.knot i).controlNumber := by
  by_cases hi : i < f.knots.size
  · rw [knot_transform f t hi]
    exact ⟨rfl, rfl, rfl⟩
  · rw [knot_of_size_le f (not_lt.mp hi), knot_of_size_le _ (by simpa using not_lt.mp hi)]
    exact ⟨rfl, rfl, rfl⟩

theorem segment_transform (s : ℕ) : (f.transform t).segment s = f.segment s := rfl

theorem following_transform (first limit i : ℕ) :
    (f.transform t).following first limit i = f.following first limit i := by
  induction limit generalizing i with
  | zero => rfl
  | succ limit ih => simp only [following, (knot_transform_fields f t i).1, segment_transform, ih]

theorem contourKnots_transform (c : Contour) :
    (f.transform t).contourKnots c = f.contourKnots c := by
  rw [contourKnots, contourKnots, size_transform, following_transform]

theorem map_mark_pointsFrom_transform (i : ℕ) :
    ((f.transform t).pointsFrom i).map mark = (f.pointsFrom i).map mark := by
  obtain ⟨hout, hnumber, hcontrol⟩ := knot_transform_fields f t i
  unfold pointsFrom
  simp only [hout, hnumber, hcontrol]
  cases (f.knot i).segmentOut with
  | none => rfl
  | some s =>
    simp only [Option.map_some, segment_transform]
    split_ifs
    · rfl
    · cases (f.segment s).order <;> rfl

/-- A contour that is moved keeps its points, with what is on the curve and with all numbers. -/
theorem map_mark_allPoints_transform (c : Contour) :
    ((f.transform t).allPoints c).map mark = (f.allPoints c).map mark := by
  rw [allPoints, allPoints, contourKnots_transform, List.map_flatMap, List.map_flatMap]
  exact List.flatMap_congr fun i _ => f.map_mark_pointsFrom_transform t i

end Figure

end Letterform
