import Letterform.Outline.Builder
import Mathlib

/-!
# Looking up knots and segments

What each change of a figure, and each step of a builder, does to the knots and segments at every
place of its tables.
-/

namespace Letterform

variable {α : Type}

namespace Figure

@[simp] theorem segments_modifyKnot (f : Figure α) (i : ℕ) (change : Knot α → Knot α) :
    (f.modifyKnot i change).segments = f.segments := rfl

@[simp] theorem contours_modifyKnot (f : Figure α) (i : ℕ) (change : Knot α → Knot α) :
    (f.modifyKnot i change).contours = f.contours := rfl

@[simp] theorem size_modifyKnot (f : Figure α) (i : ℕ) (change : Knot α → Knot α) :
    (f.modifyKnot i change).knots.size = f.knots.size := by
  simp [modifyKnot]

@[simp] theorem segments_addKnot (f : Figure α) (k : Knot α) :
    (f.addKnot k).segments = f.segments := rfl

@[simp] theorem contours_addKnot (f : Figure α) (k : Knot α) :
    (f.addKnot k).contours = f.contours := rfl

@[simp] theorem size_addKnot (f : Figure α) (k : Knot α) :
    (f.addKnot k).knots.size = f.knots.size + 1 := by
  simp [addKnot]

variable [Scalar α]

theorem knot_eq_getElem (f : Figure α) {i : ℕ} (h : i < f.knots.size) :
    f.knot i = f.knots[i] := by
  rw [knot, Array.getD_eq_getD_getElem?, Array.getElem?_eq_getElem h, Option.getD_some]

omit [Scalar α] in
theorem segment_eq_getElem (f : Figure α) {s : ℕ} (h : s < f.segments.size) :
    f.segment s = f.segments[s] := by
  rw [segment, Array.getD_eq_getD_getElem?, Array.getElem?_eq_getElem h, Option.getD_some]

theorem knot_of_size_le (f : Figure α) {i : ℕ} (h : f.knots.size ≤ i) : f.knot i = default := by
  rw [knot, Array.getD_eq_getD_getElem?, Array.getElem?_eq_none h, Option.getD_none]

theorem knot_modifyKnot (f : Figure α) (i j : ℕ) (change : Knot α → Knot α) :
    (f.modifyKnot i change).knot j =
      if i = j ∧ j < f.knots.size then change (f.knot j) else f.knot j := by
  simp only [knot, modifyKnot, Array.getD_eq_getD_getElem?, Array.getElem?_modify]
  by_cases hij : i = j
  · subst hij
    by_cases hi : i < f.knots.size
    · simp [hi]
    · simp [hi]
  · simp [hij]

theorem knot_modifyKnot_of_lt (f : Figure α) {i : ℕ} (hi : i < f.knots.size)
    (change : Knot α → Knot α) (j : ℕ) :
    (f.modifyKnot i change).knot j = if j = i then change (f.knot i) else f.knot j := by
  rw [knot_modifyKnot]
  by_cases hj : j = i
  · rw [hj, if_pos ⟨rfl, hi⟩, if_pos rfl]
  · rw [if_neg fun h => hj h.1.symm, if_neg hj]

theorem modifyKnot_congr (f : Figure α) (i : ℕ) {change change' : Knot α → Knot α}
    (h : change (f.knot i) = change' (f.knot i)) :
    f.modifyKnot i change = f.modifyKnot i change' := by
  unfold modifyKnot
  congr 1
  refine Array.ext (by simp) fun j hj hj' => ?_
  simp only [Array.getElem_modify]
  split_ifs with hij
  · subst hij
    rw [Array.size_modify] at hj
    rwa [knot_eq_getElem f hj] at h
  · rfl

theorem modifyKnot_eq_self (f : Figure α) (i : ℕ) {change : Knot α → Knot α}
    (h : change (f.knot i) = f.knot i) : f.modifyKnot i change = f := by
  have hid : f.modifyKnot i change = f.modifyKnot i id := modifyKnot_congr f i h
  rw [hid, modifyKnot]
  congr 1
  exact Array.ext (by simp) fun j _ _ => by simp [Array.getElem_modify]

theorem knot_addKnot (f : Figure α) (k : Knot α) (i : ℕ) :
    (f.addKnot k).knot i = if i = f.knots.size then k else f.knot i := by
  simp only [knot, addKnot, Array.getD_eq_getD_getElem?, Array.getElem?_push]
  split_ifs <;> rfl

theorem knot_modifyKnot_addKnot (f : Figure α) (k : Knot α) (change : Knot α → Knot α) (i : ℕ) :
    ((f.addKnot k).modifyKnot f.knots.size change).knot i =
      if i = f.knots.size then change k else f.knot i := by
  rw [knot_modifyKnot_of_lt _ (by rw [size_addKnot]; exact Nat.lt_succ_self _), knot_addKnot,
    knot_addKnot, if_pos rfl]
  exact ite_congr rfl (fun _ => rfl) fun hi => if_neg hi

@[simp] theorem contours_connect (f : Figure α) (start stop : ℕ) (order : CurveOrder) :
    (f.connect start stop order).contours = f.contours := rfl

@[simp] theorem size_connect (f : Figure α) (start stop : ℕ) (order : CurveOrder) :
    (f.connect start stop order).knots.size = f.knots.size := by
  simp [connect]

theorem segments_connect (f : Figure α) (start stop : ℕ) (order : CurveOrder) :
    (f.connect start stop order).segments = f.segments.push
      { start, stop, order
        isLine := (f.knot start).controlOut.isNone && (f.knot stop).controlIn.isNone } := rfl

omit [Scalar α] in
theorem segment_of_push {f f' : Figure α} {x : Segment} (h : f'.segments = f.segments.push x)
    (s : ℕ) : f'.segment s = if s = f.segments.size then x else f.segment s := by
  simp only [segment, h, Array.getD_eq_getD_getElem?, Array.getElem?_push]
  split_ifs <;> rfl

@[simp] theorem knot_withSegments (f : Figure α) (segments : Array Segment) (i : ℕ) :
    ({ f with segments } : Figure α).knot i = f.knot i := rfl

theorem knot_withoutLast (f : Figure α) (i : ℕ) :
    ({ f with knots := f.knots.pop } : Figure α).knot i =
      if i + 1 < f.knots.size then f.knot i else default := by
  simp only [knot, Array.getD_eq_getD_getElem?, Array.getElem?_pop]
  by_cases h : i + 1 < f.knots.size
  · rw [if_pos (by omega), if_pos h]
  · rw [if_neg (by omega), if_neg h]
    rfl

theorem knot_connect (f : Figure α) (start stop : ℕ) (order : CurveOrder) (hne : start ≠ stop)
    (hstart : start < f.knots.size) (hstop : stop < f.knots.size) (i : ℕ) :
    (f.connect start stop order).knot i =
      if i = stop then { f.knot stop with segmentIn := some f.segments.size }
      else if i = start then { f.knot start with segmentOut := some f.segments.size }
      else f.knot i := by
  rw [connect]
  dsimp only
  rw [knot_modifyKnot, knot_modifyKnot]
  simp only [size_modifyKnot, knot_withSegments]
  by_cases hi : i = stop
  · subst hi
    simp [hstop, hne]
  · by_cases hi' : i = start
    · subst hi'
      simp [hstart, hi, Ne.symm hi]
    · simp [hi, hi', Ne.symm hi, Ne.symm hi']

end Figure

namespace Builder

variable [Scalar α] {b : Builder α} {first last : ℕ}

omit [Scalar α] in
theorem modifyCurrent_eq (hpath : b.path = some (first, last)) (change : Knot α → Knot α) :
    b.modifyCurrent change = b.modifyKnot last change := by
  rw [modifyCurrent, current, hpath]
  rfl

theorem start_eq (hpath : b.path = some (first, last)) (p : Point α) : b.start p = b := by
  rw [start, hpath]

theorem extend_eq (hpath : b.path = some (first, last)) (k : Knot α) (order : CurveOrder) :
    b.extend k order =
      { b with
        figure := (b.figure.addKnot k).connect last b.figure.knots.size order
        path := some (first, b.figure.knots.size) } := by
  rw [extend, hpath]

theorem knot_joinLast (f : Figure α) (first : ℕ) (removed : Knot α) (segment : ℕ) (i : ℕ)
    (hfirst : first + 1 < f.knots.size) (hi : i + 1 < f.knots.size) :
    (joinLast f first removed segment).knot i =
      if i = first then
        { f.knot first with
          segmentIn := some segment
          controlIn := removed.controlIn
          mask := (f.knot first).mask.or removed.mask }
      else f.knot i := by
  have hpop (j : ℕ) (hj : j + 1 < f.knots.size) :
      ({ f with
        knots := f.knots.pop
        segments := f.segments.modify segment ({ · with stop := first }) } : Figure α).knot j =
        f.knot j := (f.knot_withoutLast j).trans (if_pos hj)
  rw [joinLast, Figure.knot_modifyKnot, hpop i hi]
  by_cases h : first = i
  · subst h
    have hlt : first < f.knots.size - 1 := by omega
    simp [hlt]
  · simp [h, Ne.symm h]

theorem knot_joinLast_leaving (f : Figure α) (first : ℕ) (removed : Knot α) (segment : ℕ) (i : ℕ)
    (hfirst : first + 1 < f.knots.size) (hi : i + 1 < f.knots.size) :
    ∃ segmentIn controlIn mask, (joinLast f first removed segment).knot i =
      { f.knot i with segmentIn, controlIn, mask } := by
  rw [knot_joinLast f first removed segment i hfirst hi]
  split_ifs with h
  · exact ⟨_, _, _, by rw [h]⟩
  · exact ⟨_, _, _, rfl⟩

omit [Scalar α] in
@[simp] theorem contours_joinLast (f : Figure α) (first : ℕ) (removed : Knot α) (segment : ℕ) :
    (joinLast f first removed segment).contours = f.contours := rfl

omit [Scalar α] in
@[simp] theorem size_joinLast (f : Figure α) (first : ℕ) (removed : Knot α) (segment : ℕ) :
    (joinLast f first removed segment).knots.size = f.knots.size - 1 := by
  simp [joinLast]

omit [Scalar α] in
theorem segment_joinLast (f : Figure α) (first : ℕ) (removed : Knot α) (segment s : ℕ)
    (hs : s < f.segments.size) :
    (joinLast f first removed segment).segment s =
      if s = segment then { f.segment s with stop := first } else f.segment s := by
  simp only [joinLast, Figure.segment, Figure.segments_modifyKnot, Array.getD_eq_getD_getElem?,
    Array.getElem?_modify]
  by_cases h : segment = s
  · subst h
    simp [hs]
  · simp [h, Ne.symm h]

end Builder

end Letterform
