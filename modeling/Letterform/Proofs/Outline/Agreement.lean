import Letterform.Proofs.Number.Grid
import Letterform.Proofs.Outline.Figure

/-!
# Figures that agree

Two figures agree if they have the same knots and segments in the same places and their coordinates
are the same multiples of 1/1024. Doubles that stand for one number may still differ in the sign of
zero, so such figures are equal in the sense of `==` only. Whether the masks have to be the same is
up to the one who asks.

A builder that is given agreeing points draws agreeing figures.
-/

namespace Letterform

variable {α : Type} [Scalar α] [LawfulScalar α] {masked : Prop}

structure Point.Agree (p q : Point α) : Prop where
  x : Scalar.Agree p.x q.x
  y : Scalar.Agree p.y q.y

structure Knot.Agree (masked : Prop) (k k' : Knot α) : Prop where
  anchor : k.anchor.Agree k'.anchor
  controlIn : Option.Rel Point.Agree k.controlIn k'.controlIn
  controlOut : Option.Rel Point.Agree k.controlOut k'.controlOut
  mask : masked → k.mask = k'.mask
  number : k.number = k'.number
  controlNumber : k.controlNumber = k'.controlNumber
  segmentIn : k.segmentIn = k'.segmentIn
  segmentOut : k.segmentOut = k'.segmentOut

structure Figure.Agree (masked : Prop) (f f' : Figure α) : Prop where
  size : f.knots.size = f'.knots.size
  knots (i : ℕ) : (f.knot i).Agree masked (f'.knot i)
  segments : f.segments = f'.segments
  contours : f.contours = f'.contours

structure Builder.Agree (masked : Prop) (b b' : Builder α) : Prop where
  figure : b.figure.Agree masked b'.figure
  order : b.order = b'.order
  path : b.path = b'.path

-- ---------------------------------------------------------------------------
-- Equality
-- ---------------------------------------------------------------------------

theorem Point.Agree.beq {p q : Point α} (h : p.Agree q) : (p == q) = true := by
  show (p.x == q.x && p.y == q.y) = true
  rw [h.x.beq, h.y.beq]
  rfl

theorem Point.Agree.beq_congr {p p' q q' : Point α} (hp : p.Agree p') (hq : q.Agree q') :
    (p == q) = (p' == q') := by
  show (p.x == q.x && p.y == q.y) = (p'.x == q'.x && p'.y == q'.y)
  rw [hp.x.beq_congr hq.x, hp.y.beq_congr hq.y]

theorem Point.Agree.isClose_congr {p p' q q' : Point α} (hp : p.Agree p') (hq : q.Agree q') :
    p.isClose q = p'.isClose q' := by
  rw [Point.isClose, Point.isClose, hp.x.isClose_congr hq.x, hp.y.isClose_congr hq.y]

theorem beq_of_rel {c c' : Option (Point α)} (h : Option.Rel Point.Agree c c') :
    (c == c') = true := by
  cases h with
  | some h => exact h.beq
  | none => rfl

theorem isNone_of_rel {c c' : Option (Point α)} (h : Option.Rel Point.Agree c c') :
    c.isNone = c'.isNone := by
  cases h <;> rfl

theorem Knot.Agree.beq {k k' : Knot α} (h : k.Agree True k') : (k == k') = true := by
  obtain ⟨anchor, controlIn, controlOut, mask, number, controlNumber, segmentIn, segmentOut⟩ := k
  obtain ⟨anchor', controlIn', controlOut', mask', number', controlNumber', segmentIn',
    segmentOut'⟩ := k'
  obtain ⟨ha, hin, hout, hmask, hnumber, hcontrol, hsin, hsout⟩ := h
  show (anchor == anchor' && (controlIn == controlIn' && (controlOut == controlOut' &&
    (mask == mask' && (number == number' && (controlNumber == controlNumber' &&
      (segmentIn == segmentIn' && segmentOut == segmentOut'))))))) = true
  rw [ha.beq, beq_of_rel hin, beq_of_rel hout]
  simp_all

def Figure.withoutMasks (f : Figure α) : Figure α :=
  { f with knots := f.knots.map ({ · with mask := none }) }

theorem Figure.Agree.beq {f f' : Figure α} (h : f.Agree True f') : (f == f') = true := by
  obtain ⟨knots, segments, contours⟩ := f
  obtain ⟨knots', segments', contours'⟩ := f'
  obtain ⟨hsize, hknots, rfl, rfl⟩ := h
  show (knots == knots' && (segments == segments && contours == contours)) = true
  have hk : (knots == knots') = true := by
    show knots.isEqv knots' (· == ·) = true
    rw [Array.isEqv_iff_rel]
    refine ⟨hsize, fun i hi => ?_⟩
    have := (hknots i).beq
    simpa [knot, Array.getD_eq_getD_getElem?, hi, hsize ▸ hi] using this
  rw [hk]
  simp

theorem Figure.Agree.withoutMasks {f f' : Figure α} (h : f.Agree masked f') :
    f.withoutMasks.Agree True f'.withoutMasks := by
  have hknot (f : Figure α) (i : ℕ) : f.withoutMasks.knot i = { f.knot i with mask := none } := by
    simp only [knot, Figure.withoutMasks, Array.getD_eq_getD_getElem?, Array.getElem?_map]
    rcases f.knots[i]? with _ | k <;> rfl
  refine ⟨by simp [Figure.withoutMasks, h.size], fun i => ?_, h.segments, h.contours⟩
  rw [hknot, hknot]
  exact { h.knots i with mask := fun _ => rfl }

-- ---------------------------------------------------------------------------
-- Transitivity
-- ---------------------------------------------------------------------------

theorem Point.Agree.trans {p q r : Point α} (hpq : p.Agree q) (hqr : q.Agree r) : p.Agree r :=
  ⟨hpq.x.trans hqr.x, hpq.y.trans hqr.y⟩

theorem rel_trans {c d e : Option (Point α)} (hcd : Option.Rel Point.Agree c d)
    (hde : Option.Rel Point.Agree d e) : Option.Rel Point.Agree c e := by
  cases hcd with
  | none => exact hde
  | some hcd =>
    cases hde with
    | some hde => exact .some (hcd.trans hde)

theorem Knot.Agree.trans {k l m : Knot α} (hkl : k.Agree masked l) (hlm : l.Agree masked m) :
    k.Agree masked m where
  anchor := hkl.anchor.trans hlm.anchor
  controlIn := rel_trans hkl.controlIn hlm.controlIn
  controlOut := rel_trans hkl.controlOut hlm.controlOut
  mask hmasked := (hkl.mask hmasked).trans (hlm.mask hmasked)
  number := hkl.number.trans hlm.number
  controlNumber := hkl.controlNumber.trans hlm.controlNumber
  segmentIn := hkl.segmentIn.trans hlm.segmentIn
  segmentOut := hkl.segmentOut.trans hlm.segmentOut

theorem Figure.Agree.trans {f g h : Figure α} (hfg : f.Agree masked g) (hgh : g.Agree masked h) :
    f.Agree masked h where
  size := hfg.size.trans hgh.size
  knots i := (hfg.knots i).trans (hgh.knots i)
  segments := hfg.segments.trans hgh.segments
  contours := hfg.contours.trans hgh.contours

theorem Builder.Agree.trans {b c d : Builder α} (hbc : b.Agree masked c)
    (hcd : c.Agree masked d) : b.Agree masked d where
  figure := hbc.figure.trans hcd.figure
  order := hbc.order.trans hcd.order
  path := hbc.path.trans hcd.path

-- ---------------------------------------------------------------------------
-- Changes of a figure
-- ---------------------------------------------------------------------------

theorem Knot.agree_of_anchor {p p' : Point α} (hp : p.Agree p') :
    ({ anchor := p } : Knot α).Agree masked { anchor := p' } :=
  ⟨hp, .none, .none, fun _ => rfl, rfl, rfl, rfl, rfl⟩

theorem Knot.agree_default : (default : Knot α).Agree masked default :=
  Knot.agree_of_anchor ⟨Scalar.agree_zero, Scalar.agree_zero⟩

theorem Figure.agree_empty : ({} : Figure α).Agree masked {} :=
  ⟨rfl, fun _ => Knot.agree_default, rfl, rfl⟩

namespace Figure.Agree

variable {f f' : Figure α}

theorem modifyKnot (h : f.Agree masked f') (i : ℕ) {change change' : Knot α → Knot α}
    (hchange : ∀ k k' : Knot α, k.Agree masked k' → (change k).Agree masked (change' k')) :
    (f.modifyKnot i change).Agree masked (f'.modifyKnot i change') := by
  refine ⟨by simp [h.size], fun j => ?_, h.segments, h.contours⟩
  rw [knot_modifyKnot, knot_modifyKnot, h.size]
  split_ifs
  · exact hchange _ _ (h.knots j)
  · exact h.knots j

theorem addKnot (h : f.Agree masked f') {k k' : Knot α} (hk : k.Agree masked k') :
    (f.addKnot k).Agree masked (f'.addKnot k') := by
  refine ⟨by simp [h.size], fun i => ?_, h.segments, h.contours⟩
  rw [knot_addKnot, knot_addKnot, h.size]
  split_ifs
  · exact hk
  · exact h.knots i

theorem addContour (h : f.Agree masked f') (c : Contour) :
    (f.addContour c).Agree masked (f'.addContour c) :=
  ⟨h.size, h.knots, h.segments, by simp only [Figure.addContour, h.contours]⟩

theorem withSegments (h : f.Agree masked f') {segments segments' : Array Segment}
    (hs : segments = segments') :
    ({ f with segments } : Figure α).Agree masked { f' with segments := segments' } :=
  ⟨h.size, h.knots, hs, h.contours⟩

theorem connect (h : f.Agree masked f') (start stop : ℕ) (order : CurveOrder) :
    (f.connect start stop order).Agree masked (f'.connect start stop order) := by
  have hline : ((f.knot start).controlOut.isNone && (f.knot stop).controlIn.isNone) =
      ((f'.knot start).controlOut.isNone && (f'.knot stop).controlIn.isNone) := by
    rw [isNone_of_rel (h.knots start).controlOut, isNone_of_rel (h.knots stop).controlIn]
  unfold Figure.connect
  simp only [hline, h.segments]
  refine modifyKnot (modifyKnot (h.withSegments rfl) _ ?_) _ ?_
  · exact fun _ _ hk => { hk with segmentOut := rfl }
  · exact fun _ _ hk => { hk with segmentIn := rfl }

theorem joinLast (h : f.Agree masked f') (first segment : ℕ) {k k' : Knot α}
    (hk : k.Agree masked k') :
    (Builder.joinLast f first k segment).Agree masked (Builder.joinLast f' first k' segment) := by
  unfold Builder.joinLast
  simp only [h.segments]
  have hpop : ({ f with knots := f.knots.pop } : Figure α).Agree masked
      { f' with knots := f'.knots.pop } := by
    refine ⟨by simp [h.size], fun i => ?_, h.segments, h.contours⟩
    rw [knot_withoutLast, knot_withoutLast, h.size]
    split_ifs
    · exact h.knots i
    · exact Knot.agree_default
  refine modifyKnot (hpop.withSegments rfl) first fun l l' hl => ?_
  exact { hl with
    segmentIn := rfl
    controlIn := hk.controlIn
    mask := fun hm => by simp only [hl.mask hm, hk.mask hm] }

end Figure.Agree

-- ---------------------------------------------------------------------------
-- Drawing
-- ---------------------------------------------------------------------------

namespace Builder.Agree

variable {b b' : Builder α}

theorem modifyCurrent (h : b.Agree masked b') {change change' : Knot α → Knot α}
    (hchange : ∀ k k' : Knot α, k.Agree masked k' → (change k).Agree masked (change' k')) :
    (b.modifyCurrent change).Agree masked (b'.modifyCurrent change') := by
  unfold Builder.modifyCurrent Builder.current
  rw [h.path]
  rcases b'.path with _ | ⟨first, last⟩
  · exact h
  · exact ⟨h.figure.modifyKnot last hchange, h.order, h.path⟩

theorem endContour (h : b.Agree masked b') (close : Bool) :
    (b.endContour close).Agree masked (b'.endContour close) := by
  unfold Builder.endContour
  rw [h.path]
  rcases b'.path with _ | ⟨first, last⟩
  · exact h
  have hclose : (b.figure.knot first).anchor.isClose (b.figure.knot last).anchor =
      (b'.figure.knot first).anchor.isClose (b'.figure.knot last).anchor :=
    (h.figure.knots first).anchor.isClose_congr (h.figure.knots last).anchor
  dsimp only
  rw [hclose, h.figure.size, (h.figure.knots last).segmentIn, h.order]
  split_ifs
  · exact ⟨h.figure.addContour _, rfl, rfl⟩
  · rcases (b'.figure.knot last).segmentIn with _ | s
    · exact ⟨h.figure.addContour _, rfl, rfl⟩
    · have hstart : b.figure.segment s = b'.figure.segment s := by
        rw [Figure.segment, Figure.segment, h.figure.segments]
      dsimp only
      rw [hstart]
      exact ⟨(h.figure.joinLast first s (h.figure.knots last)).addContour _, rfl, rfl⟩
  · refine ⟨Figure.Agree.addContour (Figure.Agree.connect (Figure.Agree.modifyKnot
      (h.figure.modifyKnot last ?_) first ?_) last first b'.order) _, rfl, rfl⟩
    · exact fun _ _ hk => { hk with controlOut := .none }
    · exact fun _ _ hk => { hk with controlIn := .none }
  · exact ⟨h.figure.addContour _, rfl, rfl⟩

theorem moveTo (h : b.Agree masked b') {p p' : Point α} (hp : p.Agree p') :
    (b.moveTo p).Agree masked (b'.moveTo p') := by
  have hend := h.endContour false
  refine ⟨hend.figure.addKnot (Knot.agree_of_anchor hp), hend.order, ?_⟩
  simp only [Builder.moveTo, hend.figure.size]

theorem start (h : b.Agree masked b') {p p' : Point α} (hp : p.Agree p') :
    (b.start p).Agree masked (b'.start p') := by
  unfold Builder.start
  rw [h.path]
  rcases b'.path with _ | path
  · exact h.moveTo hp
  · exact h

theorem extend (h : b.Agree masked b') {k k' : Knot α} (hk : k.Agree masked k')
    (order : CurveOrder) : (b.extend k order).Agree masked (b'.extend k' order) := by
  unfold Builder.extend
  rw [h.path]
  rcases b'.path with _ | ⟨first, last⟩
  · exact h
  · simp only [h.figure.size]
    exact ⟨(h.figure.addKnot hk).connect _ _ _, h.order, rfl⟩

theorem lineTo (h : b.Agree masked b') {p p' : Point α} (hp : p.Agree p') :
    (b.lineTo p).Agree masked (b'.lineTo p') := by
  have hstart := h.start hp
  unfold Builder.lineTo
  dsimp only
  rw [hstart.order]
  exact hstart.extend (Knot.agree_of_anchor hp) _

theorem curveTo (h : b.Agree masked b') {c1 c1' c2 c2' p p' : Point α} (h1 : c1.Agree c1')
    (h2 : c2.Agree c2') (hp : p.Agree p') :
    (b.curveTo c1 c2 p).Agree masked (b'.curveTo c1' c2' p') := by
  refine extend (modifyCurrent (h.start h1) fun k k' hk => ?_) ?_ _
  · refine { hk with controlOut := ?_ }
    rw [h1.beq_congr hk.anchor]
    split_ifs
    · exact .none
    · exact .some h1
  · refine ⟨hp, ?_, .none, fun _ => rfl, rfl, rfl, rfl, rfl⟩
    dsimp only
    rw [h2.beq_congr hp]
    split_ifs
    · exact .none
    · exact .some h2

theorem finish (h : b.Agree masked b') : b.finish.Agree masked b'.finish :=
  (h.endContour false).figure

end Builder.Agree

end Letterform
