import Letterform.Proofs.Outline.Figure

/-!
# Moving a figure while it is drawn

A builder that draws to moved points draws the moved figure. Only the end of a contour depends on
where its points are: there it must not matter whether the ends are compared before or after.
-/

namespace Letterform

variable {α : Type} [Scalar α]

namespace Figure

variable (f : Figure α) (t : Affine α)

@[simp]
theorem size_transform : (f.transform t).knots.size = f.knots.size := by simp [transform]

theorem knot_transform {i : ℕ} (hi : i < f.knots.size) :
    (f.transform t).knot i = (f.knot i).map t.apply := by
  simp [knot, transform, hi]

theorem controls_transform (i : ℕ) :
    ((f.transform t).knot i).controlIn = (f.knot i).controlIn.map t.apply ∧
      ((f.transform t).knot i).controlOut = (f.knot i).controlOut.map t.apply := by
  by_cases hi : i < f.knots.size
  · rw [knot_transform f t hi]
    exact ⟨rfl, rfl⟩
  · simp only [knot, transform, Array.getD_eq_getD_getElem?, Array.getElem?_map,
      Array.getElem?_eq_none (Nat.not_lt.mp hi)]
    exact ⟨rfl, rfl⟩

theorem transform_addKnot (k : Knot α) :
    (f.addKnot k).transform t = (f.transform t).addKnot (k.map t.apply) := by
  simp [transform, addKnot]

theorem transform_modifyKnot (i : ℕ) (change change' : Knot α → Knot α)
    (h : ∀ k, (change k).map t.apply = change' (k.map t.apply)) :
    (f.modifyKnot i change).transform t = (f.transform t).modifyKnot i change' := by
  simp only [transform, modifyKnot, Figure.mk.injEq, and_true]
  refine Array.ext_getElem? fun j => ?_
  simp only [Array.getElem?_map, Array.getElem?_modify]
  split_ifs
  · cases f.knots[j]? <;> simp [h]
  · rfl

theorem transform_connect (start stop : ℕ) (order : CurveOrder) :
    (f.connect start stop order).transform t = (f.transform t).connect start stop order := by
  let arrive (k : Knot α) : Knot α := { k with segmentIn := some f.segments.size }
  let leave (k : Knot α) : Knot α := { k with segmentOut := some f.segments.size }
  rw [connect, transform_modifyKnot _ t stop arrive arrive fun _ => rfl,
    transform_modifyKnot _ t start leave leave fun _ => rfl, connect,
    (controls_transform f t start).2, (controls_transform f t stop).1]
  simp only [Option.isNone_map]
  rfl

end Figure

namespace Builder

def transform (b : Builder α) (t : Affine α) : Builder α :=
  { b with figure := b.figure.transform t }

variable (b : Builder α) (t : Affine α)

theorem transform_modifyCurrent (change change' : Knot α → Knot α)
    (h : ∀ k, (change k).map t.apply = change' (k.map t.apply)) :
    (b.modifyCurrent change).transform t = (b.transform t).modifyCurrent change' := by
  obtain ⟨f, order, path⟩ := b
  cases path with
  | none => rfl
  | some path =>
    show (⟨(f.modifyKnot path.2 change).transform t, order, some path⟩ : Builder α) = _
    rw [Figure.transform_modifyKnot f t path.2 change change' h]
    rfl

theorem transform_extend (k : Knot α) (order : CurveOrder) :
    (b.extend k order).transform t = (b.transform t).extend (k.map t.apply) order := by
  obtain ⟨f, order', path⟩ := b
  cases path with
  | none => rfl
  | some path =>
    show (⟨((f.addKnot k).connect path.2 f.knots.size order).transform t, order',
      some (path.1, f.knots.size)⟩ : Builder α) = _
    rw [Figure.transform_connect, Figure.transform_addKnot]
    show _ = (⟨((f.transform t).addKnot (k.map t.apply)).connect path.2 (f.transform t).knots.size
      order, order', some (path.1, (f.transform t).knots.size)⟩ : Builder α)
    rw [Figure.size_transform]

variable {b} in
theorem transform_moveTo (hpath : b.path = none) (p : Point α) :
    (b.moveTo p).transform t = (b.transform t).moveTo (t.apply p) := by
  obtain ⟨f, order, path⟩ := b
  obtain rfl : path = none := hpath
  show (⟨(f.addKnot { anchor := p }).transform t, order, some (f.knots.size, f.knots.size)⟩ :
    Builder α) = ⟨(f.transform t).addKnot { anchor := t.apply p }, order,
      some ((f.transform t).knots.size, (f.transform t).knots.size)⟩
  rw [Figure.transform_addKnot, Figure.size_transform]
  rfl

theorem transform_start (p : Point α) :
    (b.start p).transform t = (b.transform t).start (t.apply p) := by
  cases hpath : b.path with
  | none =>
    have hpath' : (b.transform t).path = none := hpath
    rw [start, start, hpath, hpath']
    exact transform_moveTo t hpath p
  | some path =>
    have hpath' : (b.transform t).path = some path := hpath
    rw [start, start, hpath, hpath']

theorem transform_lineTo (p : Point α) :
    (b.lineTo p).transform t = (b.transform t).lineTo (t.apply p) := by
  have horder : (b.start p).order = ((b.transform t).start (t.apply p)).order := by
    rw [← transform_start]
    rfl
  rw [lineTo, horder, transform_extend, transform_start]
  rfl

theorem transform_quadTo (c p : Point α) :
    (b.quadTo c p).transform t = (b.transform t).quadTo (t.apply c) (t.apply p) := by
  rw [quadTo, transform_extend, transform_modifyCurrent _ t ({ · with controlOut := some c })
    ({ · with controlOut := some (t.apply c) }) fun _ => rfl, transform_start]
  rfl

theorem transform_joinLast (f : Figure α) (first : ℕ) (removed : Knot α) (segment : ℕ) :
    (joinLast f first removed segment).transform t =
      joinLast (f.transform t) first (removed.map t.apply) segment := by
  rw [joinLast, Figure.transform_modifyKnot _ t first
    (fun k => { k with
      segmentIn := some segment
      controlIn := removed.controlIn
      mask := k.mask.or removed.mask })
    (fun k => { k with
      segmentIn := some segment
      controlIn := removed.controlIn.map t.apply
      mask := k.mask.or removed.mask }) fun _ => rfl]
  simp only [joinLast, Figure.transform, Array.map_pop]
  rfl

variable {b} in
theorem transform_close {first last : ℕ} (hpath : b.path = some (first, last)) (hle : first ≤ last)
    (hlast : last + 1 = b.figure.knots.size)
    (hclose : (b.figure.knot first).anchor.isClose (b.figure.knot last).anchor = true)
    (hclose' : (t.apply (b.figure.knot first).anchor).isClose
      (t.apply (b.figure.knot last).anchor) = true) :
    b.close.transform t = (b.transform t).close := by
  obtain ⟨f, order, path⟩ := b
  obtain rfl : path = some (first, last) := hpath
  dsimp only at hlast hclose hclose'
  have hknot : (f.transform t).knot first = (f.knot first).map t.apply :=
    Figure.knot_transform f t (by omega)
  have hknot' : (f.transform t).knot last = (f.knot last).map t.apply :=
    Figure.knot_transform f t (by omega)
  have hanchor (k : Knot α) : (k.map t.apply).anchor = t.apply k.anchor := rfl
  have hsegment (k : Knot α) : (k.map t.apply).segmentIn = k.segmentIn := rfl
  simp only [close, endContour, transform, hknot, hknot', hanchor, hsegment, hclose, hclose',
    hlast, Figure.size_transform, beq_self_eq_true, Bool.and_self, if_true]
  by_cases hsingle : first = last
  · simp only [if_pos hsingle]
    rfl
  · simp only [if_neg hsingle]
    cases hin : (f.knot last).segmentIn with
    | none => rfl
    | some s =>
      dsimp only
      rw [← transform_joinLast]
      rfl

end Builder

end Letterform
