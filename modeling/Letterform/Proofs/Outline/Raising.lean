import Letterform.Proofs.Geometry.Affine
import Letterform.Proofs.Number.Closeness
import Letterform.Proofs.Outline.Order
import Letterform.Proofs.Outline.Redrawing

/-!
# Figures with cubic curves

A figure that is drawn again with cubic curves has the same contours with the same knots. Lines stay
lines, cubic curves keep their control points, and quadratic ones get control points two thirds of
the way to theirs. A contour has to be closed by a curve, or else to end away from its first knot:
the builder would join the ends of a contour that comes back there.
-/

namespace Letterform

variable {α : Type} [Scalar α]

/-- A knot in the same place, with the same mask and number. -/
structure Knot.Resembles (k' k : Knot α) : Prop where
  anchor : k'.anchor = k.anchor
  mask : k'.mask = k.mask
  number : k'.number = k.number

namespace Figure

variable {f f' g : Figure α} {c : Contour}

/-- A stroke of a segment that is drawn again leaves one knot and arrives at another one. -/
structure RaisesStroke (f f' : Figure α) (s i j : ℕ) : Prop where
  departing : (f'.knot i).controlOut = (f.stroke s false).departing
  arriving : (f'.knot j).controlIn = (f.stroke s false).arriving

/-- The knots of a contour that has been drawn again with cubic curves. -/
structure RaisesContour (f f' : Figure α) (c : Contour) : Prop where
  resembles : ∀ i, c.first ≤ i → i ≤ c.last → (f'.knot i).Resembles (f.knot i)
  inner : ∀ i, c.first ≤ i → i < c.last → f.RaisesStroke f' (f.leavingSegment i) i (i + 1)
  closing : ∀ s, (f.knot c.last).segmentOut = some s → f.RaisesStroke f' s c.last c.first
  segmentOut : (f'.knot c.last).segmentOut.isSome = (f.knot c.last).segmentOut.isSome

theorem RaisesContour.congr {f'' : Figure α} (h : f.RaisesContour f' c) (hle : c.first ≤ c.last)
    (hknot : ∀ i, c.first ≤ i → i ≤ c.last → f''.knot i = f'.knot i) : f.RaisesContour f'' c := by
  have hstroke {s i j : ℕ} (hi : f''.knot i = f'.knot i) (hj : f''.knot j = f'.knot j)
      (hs : f.RaisesStroke f' s i j) : f.RaisesStroke f'' s i j :=
    ⟨by rw [hi, hs.departing], by rw [hj, hs.arriving]⟩
  refine ⟨fun i hi hi' => ?_, fun i hi hlt => ?_, fun s hs => ?_, ?_⟩
  · rw [hknot i hi hi']
    exact h.resembles i hi hi'
  · exact hstroke (hknot i hi hlt.le) (hknot (i + 1) (by omega) hlt) (h.inner i hi hlt)
  · exact hstroke (hknot c.last hle le_rfl) (hknot c.first le_rfl hle) (h.closing s hs)
  · rw [hknot c.last hle le_rfl, h.segmentOut]

end Figure

namespace Builder

open Figure (RaisesStroke RaisesContour)

variable {f g : Figure α} {c : Contour} {b : Builder α} {m : ℕ}

/-- A contour that is being drawn again behind a figure, up to the knot `m`. -/
structure IsRedrawing (f g : Figure α) (c : Contour) (m : ℕ) (b : Builder α) : Prop where
  neat : b.IsNeat
  path : b.path = some (c.first, m)
  contours : b.figure.contours = g.contours
  kept : ∀ i < c.first, b.figure.knot i = g.knot i
  resembles : ∀ i, c.first ≤ i → i ≤ m → (b.figure.knot i).Resembles (f.knot i)
  inner : ∀ i, c.first ≤ i → i < m → f.RaisesStroke b.figure (f.leavingSegment i) i (i + 1)

theorem isRedrawing_moveTo (hb : b.IsNeat) (hg : (b.endContour false).figure = g)
    (hsize : g.knots.size = c.first) :
    IsRedrawing f g c c.first
      (Figure.inherit (b.moveTo (f.knot c.first).anchor) (f.knot c.first)) := by
  subst hg
  have hpath : (b.moveTo (f.knot c.first).anchor).path = some (c.first, c.first) := by
    rw [moveTo, ← hsize]
  have hneat := hb.moveTo (f.knot c.first).anchor
  obtain ⟨hpath', hcontours, hknot⟩ := inherit_spec hneat.sound hpath (f.knot c.first)
  have hmove (i : ℕ) : (b.moveTo (f.knot c.first).anchor).figure.knot i =
      if i = c.first then { anchor := (f.knot c.first).anchor }
      else (b.endContour false).figure.knot i := hsize ▸ Figure.knot_addKnot _ _ i
  refine ⟨hneat.inherit _, hpath', hcontours, fun i hi => ?_, fun i hi hi' => ?_,
    fun i hi hlt => ?_⟩
  · rw [hknot, if_neg hi.ne, hmove, if_neg hi.ne]
  · obtain rfl : i = c.first := le_antisymm hi' hi
    rw [hknot, if_pos rfl, hmove, if_pos rfl]
    exact ⟨rfl, rfl, rfl⟩
  · omega

theorem IsRedrawing.redrawStroke (h : IsRedrawing f g c m b) (hf : f.IsTraced c) (hm : m < c.last)
    (accuracy : α) :
    IsRedrawing f g c (m + 1)
      (Figure.redrawStroke .cubic accuracy b (f.stroke (f.leavingSegment m) false)) := by
  have hle := (h.neat.sound.first_le h.path).1
  have hjoins := hf.path.joins_leavingSegment hle hm
  have hstart : (f.stroke (f.leavingSegment m) false).start = f.knot m :=
    congrArg f.knot hjoins.start
  have hstop : (f.stroke (f.leavingSegment m) false).stop = f.knot (m + 1) :=
    congrArg f.knot hjoins.stop
  have hdrawn := h.neat.strokeDrawn h.path (s := f.stroke (f.leavingSegment m) false)
    ((h.resembles m hle le_rfl).anchor.trans (congrArg Knot.anchor hstart).symm)
  have hneat := h.neat.obey (f.stroke (f.leavingSegment m) false).raised
  obtain ⟨hpath, hcontours, hknot⟩ := inherit_spec hneat.sound hdrawn.path (f.knot (m + 1))
  have hredraw : Figure.redrawStroke .cubic accuracy b (f.stroke (f.leavingSegment m) false) =
      Figure.inherit (b.obey (f.stroke (f.leavingSegment m) false).raised) (f.knot (m + 1)) := by
    rw [Figure.redrawStroke, Stroke.draw_cubic, hstop]
    rfl
  have hnewest := (hknot (m + 1)).trans (if_pos rfl)
  rw [hdrawn.knot, if_pos rfl, hstop] at hnewest
  have hleft : (Figure.inherit (b.obey (f.stroke (f.leavingSegment m) false).raised)
      (f.knot (m + 1))).figure.knot m =
        { b.figure.knot m with
          controlOut := (f.stroke (f.leavingSegment m) false).departing
          segmentOut := some b.figure.segments.size } := by
    rw [hknot, if_neg (by omega), hdrawn.knot, if_neg (by omega), if_pos rfl]
  have hbefore (i : ℕ) (hi : i < m) : (Figure.inherit
      (b.obey (f.stroke (f.leavingSegment m) false).raised) (f.knot (m + 1))).figure.knot i =
        b.figure.knot i := by
    rw [hknot, if_neg (by omega), hdrawn.knot, if_neg (by omega), if_neg (by omega)]
  rw [hredraw]
  refine ⟨hneat.inherit _, hpath, (hcontours.trans hdrawn.contours).trans h.contours,
    fun i hi => ?_, fun i hi hi' => ?_, fun i hi hlt => ?_⟩
  · rw [hbefore i (by omega), h.kept i hi]
  · rcases Nat.lt_trichotomy i m with hlt | rfl | hgt
    · rw [hbefore i hlt]
      exact h.resembles i hi hlt.le
    · rw [hleft]
      obtain ⟨hanchor, hmask, hnumber⟩ := h.resembles i hi le_rfl
      exact ⟨hanchor, hmask, hnumber⟩
    · obtain rfl : i = m + 1 := by omega
      rw [hnewest]
      exact ⟨rfl, rfl, rfl⟩
  · rcases Nat.lt_trichotomy (i + 1) m with hlt' | rfl | hgt
    · obtain ⟨hdeparting, harriving⟩ := h.inner i hi (by omega)
      exact ⟨by rw [hbefore i (by omega), hdeparting], by rw [hbefore (i + 1) hlt', harriving]⟩
    · obtain ⟨hdeparting, harriving⟩ := h.inner i hi (by omega)
      exact ⟨by rw [hbefore i (by omega), hdeparting], by rw [hleft, ← harriving]⟩
    · obtain rfl : i = m := by omega
      exact ⟨by rw [hleft], by rw [hnewest]⟩

theorem IsRedrawing.innerStrokes (h : IsRedrawing f g c c.first b) (hf : f.IsTraced c)
    (accuracy : α) :
    IsRedrawing f g c c.last
      ((f.innerStrokes c).foldl (Figure.redrawStroke .cubic accuracy) b) := by
  have hcount (n : ℕ) (hn : c.first + n ≤ c.last) : IsRedrawing f g c (c.first + n)
      (((List.range' c.first n).map fun i => f.stroke (f.leavingSegment i) false).foldl
        (Figure.redrawStroke .cubic accuracy) b) := by
    induction n with
    | zero => exact h
    | succ n ih =>
      rw [List.range'_concat, List.map_append, List.foldl_append, Nat.one_mul]
      exact (ih (by omega)).redrawStroke hf (by omega) accuracy
  have hle := hf.path.le
  have hall := hcount (c.last - c.first) (by omega)
  rwa [show c.first + (c.last - c.first) = c.last by omega] at hall

-- ---------------------------------------------------------------------------
-- The ends of contours
-- ---------------------------------------------------------------------------

structure HasRedrawn (f g : Figure α) (c : Contour) (f' : Figure α) : Prop where
  contours : f'.contours = g.contours.push c
  size : f'.knots.size = c.last + 1
  kept : ∀ i < c.first, f'.knot i = g.knot i
  raises : f.RaisesContour f' c

theorem IsRedrawing.leaveOpen (h : IsRedrawing f g c c.last b)
    (hout : (f.knot c.last).segmentOut = none) : HasRedrawn f g c (b.figure.addContour c) := by
  have hdrawing := (isSound_of_some h.path).mp h.neat.sound
  refine ⟨congrArg (·.push c) h.contours, hdrawing.size.symm, h.kept,
    ⟨h.resembles, fun i hi hlt => ?_, fun s hs => ?_, ?_⟩⟩
  · obtain ⟨hdeparting, harriving⟩ := h.inner i hi hlt
    exact ⟨hdeparting, harriving⟩
  · rw [hout] at hs
    cases hs
  · rw [hout]
    exact congrArg Option.isSome hdrawing.loose.segmentOut

theorem IsRedrawing.closeByLine (h : IsRedrawing f g c c.last b) (hne : c.first ≠ c.last) {s : ℕ}
    (hs : (f.knot c.last).segmentOut = some s) (hline : (f.segment s).isLine = true)
    (order : CurveOrder) :
    HasRedrawn f g c ((b.figure.connect c.last c.first order).addContour c) := by
  have hsize := ((isSound_of_some h.path).mp h.neat.sound).size
  have hbare := h.neat.bare _ _ h.path
  have hcontrols : (f.stroke s false).raisedControls = none := if_pos hline
  have hclosing : f.RaisesStroke b.figure s c.last c.first := by
    refine ⟨hbare.controlOut.trans ?_, hbare.controlIn.trans ?_⟩
    · rw [Stroke.departing, hcontrols]
      rfl
    · rw [Stroke.arriving, hcontrols]
      rfl
  have hle := (h.neat.sound.first_le h.path).1
  have hknot := Figure.knot_connect b.figure c.last c.first order hne.symm (by omega) (by omega)
  have hsides (i : ℕ) : ∃ segmentIn segmentOut,
      (b.figure.connect c.last c.first order).knot i =
        { b.figure.knot i with segmentIn, segmentOut } := by
    rw [hknot]
    split_ifs with hi hi'
    · exact ⟨_, _, by rw [hi]⟩
    · exact ⟨_, _, by rw [hi']⟩
    · exact ⟨_, _, rfl⟩
  have hstroke {s i j : ℕ} (h : f.RaisesStroke b.figure s i j) : f.RaisesStroke
      ((b.figure.connect c.last c.first order).addContour c) s i j := by
    obtain ⟨_, _, hi⟩ := hsides i
    obtain ⟨_, _, hj⟩ := hsides j
    exact ⟨(congrArg Knot.controlOut hi).trans h.departing,
      (congrArg Knot.controlIn hj).trans h.arriving⟩
  refine ⟨congrArg (·.push c) h.contours, (Figure.size_connect ..).trans hsize.symm,
    fun i hi => ?_, ⟨fun i hi hi' => ?_, fun i hi hlt => hstroke (h.inner i hi hlt),
      fun t ht => ?_, ?_⟩⟩
  · exact ((hknot i).trans ((if_neg hi.ne).trans (if_neg (by omega)))).trans (h.kept i hi)
  · obtain ⟨_, _, hk⟩ := hsides i
    obtain ⟨hanchor, hmask, hnumber⟩ := h.resembles i hi hi'
    exact ⟨(congrArg Knot.anchor hk).trans hanchor, (congrArg Knot.mask hk).trans hmask,
      (congrArg Knot.number hk).trans hnumber⟩
  · obtain rfl : s = t := Option.some.inj (hs.symm.trans ht)
    exact hstroke hclosing
  · have hlast := (hknot c.last).trans ((if_neg hne.symm).trans (if_pos rfl))
    rw [hs]
    exact congrArg (fun k : Knot α => k.segmentOut.isSome) hlast

theorem IsRedrawing.endContour (h : IsRedrawing f g c c.last b) (hf : f.IsTraced c)
    (hline : ∀ s, (f.knot c.last).segmentOut = some s → (f.segment s).isLine = true)
    (hapart : c.first = c.last ∧ (f.knot c.last).segmentOut = none ∨ c.first ≠ c.last ∧
      (f.knot c.first).anchor.isClose (f.knot c.last).anchor = false) :
    HasRedrawn f g c (b.endContour (f.isClosed c)).figure := by
  have hle := hf.path.le
  rw [h.neat.figure_endContour h.path, (h.resembles c.first le_rfl hle).anchor,
    (h.resembles c.last hle le_rfl).anchor]
  rcases hapart with ⟨hsame, hout⟩ | ⟨hne, hapart⟩
  · rw [if_pos hsame]
    exact h.leaveOpen hout
  rw [if_neg hne, hapart, if_neg Bool.false_ne_true]
  rcases hf.ends with hloose | ⟨s, hs⟩
  · have hopen : f.isClosed c = false := by rw [Figure.isClosed, hloose.segmentOut]
    rw [hopen, if_neg Bool.false_ne_true]
    exact h.leaveOpen hloose.segmentOut
  · rw [hf.isClosed_iff.mpr ⟨s, hs⟩, if_pos rfl]
    exact h.closeByLine hne hs.segmentOut (hline s hs.segmentOut) b.order

/-- A contour that is closed by a curve is joined where the curve comes back to its first knot. -/
theorem IsRedrawing.join (h : IsRedrawing f g c c.last b) {s : ℕ} (hs : f.Joins s c.last c.first)
    (hclose : (f.knot c.first).anchor.isClose (f.knot c.first).anchor = true) (accuracy : α) :
    HasRedrawn f g c
      ((Figure.redrawStroke .cubic accuracy b (f.stroke s true)).endContour true).figure := by
  have hle := (h.neat.sound.first_le h.path).1
  have hstart : (f.stroke s true).start = f.knot c.last := congrArg f.knot hs.start
  have hstop : (f.stroke s true).stop = f.knot c.first := congrArg f.knot hs.stop
  have hredraw : Figure.redrawStroke .cubic accuracy b (f.stroke s true) =
      b.obey (f.stroke s true).raised := Stroke.draw_cubic _ _ _
  have hjoined := h.neat.strokeJoined h.path (s := f.stroke s true)
    (by rw [hstart, (h.resembles c.last hle le_rfl).anchor])
    (by rw [hstop, (h.resembles c.first le_rfl hle).anchor, hclose])
  rw [← hredraw] at hjoined
  refine ⟨hjoined.contours.trans (congrArg (·.push c) h.contours), hjoined.size,
    fun i hi => (hjoined.kept i hi).trans (h.kept i hi), ⟨fun i hi hi' => ?_, fun i hi hlt => ?_,
      fun t ht => ?_, ?_⟩⟩
  · obtain ⟨_, _, hk⟩ := hjoined.knot i hi hi'
    obtain ⟨hanchor, hmask, hnumber⟩ := h.resembles i hi hi'
    rw [hk]
    exact ⟨hanchor, hmask, hnumber⟩
  · obtain ⟨_, _, hk⟩ := hjoined.knot i hi hlt.le
    obtain ⟨_, _, hk'⟩ := hjoined.knot (i + 1) (by omega) hlt
    obtain ⟨hdeparting, harriving⟩ := h.inner i hi hlt
    refine ⟨?_, ?_⟩
    · rw [hk]
      exact (if_neg hlt.ne).trans hdeparting
    · rw [hk']
      exact (if_neg (by omega)).trans harriving
  · obtain rfl : s = t := Option.some.inj (hs.segmentOut.symm.trans ht)
    obtain ⟨_, _, hk⟩ := hjoined.knot c.last hle le_rfl
    obtain ⟨_, _, hk'⟩ := hjoined.knot c.first le_rfl hle
    refine ⟨?_, ?_⟩
    · rw [hk]
      exact if_pos rfl
    · rw [hk']
      exact if_pos rfl
  · rw [hs.segmentOut]
    exact hjoined.segmentOut

end Builder

namespace Figure

/-- A contour that is open or closed by a line ends away from its first knot, unless this is all of
it. -/
def EndsApart (f : Figure α) (c : Contour) : Prop :=
  f.closingStroke c = [] → f.contourSegments c = [] ∨
    (f.knot c.first).anchor.isClose (f.knot c.last).anchor = false

instance (f : Figure α) (c : Contour) : Decidable (f.EndsApart c) :=
  inferInstanceAs (Decidable (_ → _ ∨ _))

variable {f g : Figure α} {c : Contour} {b : Builder α}

section

variable (hself : ∀ p q : Point α, p.isClose q = true → p.isClose p = true) (hf : f.IsNeat)

include hself hf

theorem EndsApart.cases (h : f.EndsApart c) (hc : c ∈ f.contours)
    (hclosing : f.closingStroke c = []) :
    c.first = c.last ∧ (f.knot c.last).segmentOut = none ∨ c.first ≠ c.last ∧
      (f.knot c.first).anchor.isClose (f.knot c.last).anchor = false := by
  have htraced := hf.traced hc
  have hle := htraced.path.le
  rcases h hclosing with hnone | hapart
  · rw [htraced.contourSegments, List.append_eq_nil_iff, List.map_eq_nil_iff,
      List.range'_eq_nil_iff, Option.toList_eq_nil_iff] at hnone
    exact .inl ⟨by omega, hnone.2⟩
  · by_cases hsame : c.first = c.last
    · rcases hf.ends c hc with ⟨-, hsingle⟩ | ⟨-, p, hp⟩
      · exact .inl ⟨hsame, hsingle hsame⟩
      · rw [← hsame, hself _ _ hp] at hapart
        cases hapart
    · exact .inr ⟨hsame, hapart⟩

theorem EndsApart.redrawContour (h : f.EndsApart c) (hc : c ∈ f.contours) (hb : b.IsNeat)
    (hg : (b.endContour false).figure = g) (hsize : g.knots.size = c.first) (accuracy : α) :
    Builder.HasRedrawn f g c ((f.redrawContour .cubic accuracy b c).endContour false).figure := by
  have htraced := hf.traced hc
  have hinner := (Builder.isRedrawing_moveTo (f := f) hb hg hsize).innerStrokes htraced accuracy
  rw [endContour_redrawContour, htraced.strokes, List.foldl_append]
  rcases htraced.ends with hloose | ⟨s, hs⟩
  · have hclosing : f.closingStroke c = [] := by rw [closingStroke, hloose.segmentOut]
    rw [hclosing]
    refine hinner.endContour htraced (fun s hs => ?_) (h.cases hself hf hc hclosing)
    rw [hloose.segmentOut] at hs
    cases hs
  · cases hline : (f.segment s).isLine with
    | true =>
      have hclosing : f.closingStroke c = [] := by
        rw [closingStroke, hs.segmentOut]
        exact if_pos hline
      rw [hclosing]
      refine hinner.endContour htraced (fun t ht => ?_) (h.cases hself hf hc hclosing)
      rwa [← Option.some.inj (hs.segmentOut.symm.trans ht)]
    | false =>
      have hclosing : f.closingStroke c = [f.stroke s true] := by
        rw [closingStroke, hs.segmentOut]
        exact if_neg (by rw [hline]; exact Bool.false_ne_true)
      rw [hclosing, htraced.isClosed_iff.mpr ⟨s, hs⟩]
      refine hinner.join hs ?_ accuracy
      -- Only where the contour has come back to its first knot may a curve close it.
      rcases hf.ends c hc with ⟨hbare, -⟩ | ⟨-, p, hp⟩
      · rw [hs.isLine, hbare.controlOut, hbare.controlIn] at hline
        cases hline
      · exact hself _ _ hp

theorem IsNeat.foldl_redrawContour (accuracy : α) {start : ℕ} {contours : List Contour}
    (htiles : Tiles start contours f.knots.size)
    (hcontours : ∀ c ∈ contours, c ∈ f.contours ∧ f.EndsApart c) (hb : b.IsNeat)
    (hsize : (b.endContour false).figure.knots.size = start)
    (hraises : ∀ c ∈ (b.endContour false).figure.contours,
      f.RaisesContour (b.endContour false).figure c) :
    let b' := contours.foldl (f.redrawContour .cubic accuracy) b
    b'.finish.contours.toList = (b.endContour false).figure.contours.toList ++ contours ∧
      b'.finish.knots.size = f.knots.size ∧ b'.finish.IsNeat ∧
      ∀ c ∈ b'.finish.contours, f.RaisesContour b'.finish c := by
  induction contours generalizing start b with
  | nil =>
    obtain rfl : start = f.knots.size := htiles
    exact ⟨(List.append_nil _).symm, hsize, hb.finish, hraises⟩
  | cons c contours ih =>
    obtain ⟨rfl, hle, htiles⟩ := htiles
    obtain ⟨⟨hc, hapart⟩, hrest⟩ := List.forall_mem_cons.mp hcontours
    obtain ⟨hpush, hsize', hkept, hraised⟩ :=
      hapart.redrawContour hself hf hc hb rfl hsize accuracy
    have hbefore := hb.finish.tiled
    have hall := ih htiles hrest (hb.redrawContour f accuracy c) hsize' fun d hd => ?_
    · rw [hpush, Array.toList_push, List.append_assoc] at hall
      exact hall
    · rw [hpush] at hd
      rcases Array.mem_push.mp hd with hd | rfl
      · have hlt := hbefore.tiles.lt.2 d (Array.mem_toList_iff.mpr hd)
        rw [Builder.finish, hsize] at hlt
        exact (hraises d hd).congr (hbefore.traced d (Array.mem_toList_iff.mpr hd)).path.le
          fun i _ hi => hkept i (by omega)
      · exact hraised

end

end Figure

namespace Builder.HasOrder

variable {b : Builder α}

theorem redrawStroke (h : b.HasOrder .cubic) (accuracy : α) (s : Stroke α) :
    (Figure.redrawStroke .cubic accuracy b s).HasOrder .cubic := by
  have hraised : (b.obey s.raised).HasOrder .cubic := by
    unfold Stroke.raised
    split
    · exact h.lineTo _
    · exact h.curveTo _ _ _
  unfold Figure.redrawStroke
  dsimp only
  rw [s.draw_cubic]
  split_ifs
  · exact hraised
  · exact hraised.modifyCurrent _

theorem redrawContour (h : b.HasOrder .cubic) (f : Figure α) (accuracy : α) (c : Contour) :
    (f.redrawContour .cubic accuracy b c).HasOrder .cubic := by
  have hstrokes (strokes : List (Stroke α)) {b : Builder α} (hb : b.HasOrder .cubic) :
      (strokes.foldl (Figure.redrawStroke .cubic accuracy) b).HasOrder .cubic := by
    induction strokes generalizing b with
    | nil => exact hb
    | cons s strokes ih => exact ih (hb.redrawStroke accuracy s)
  have hall := hstrokes (f.strokes c)
    ((h.moveTo (f.knot c.first).anchor).modifyCurrent
      ({ · with mask := (f.knot c.first).mask, number := (f.knot c.first).number }))
  show Builder.HasOrder .cubic (if f.isClosed c then Builder.close _ else _)
  split_ifs
  · exact hall.endContour true
  · exact hall

end Builder.HasOrder

namespace Figure

variable {f f' : Figure α} {c : Contour}

-- ---------------------------------------------------------------------------
-- Raised figures
-- ---------------------------------------------------------------------------

/-- A segment has these control points as a cubic curve. One that is equal to its anchor is dropped,
and a segment that loses both becomes a line. -/
structure HasControls (f : Figure α) (s i j : ℕ) (c1 c2 : Point α) : Prop where
  controlOut : (f.knot i).controlOut = if c1 == (f.knot i).anchor then none else some c1
  controlIn : (f.knot j).controlIn = if c2 == (f.knot j).anchor then none else some c2
  isLine : (f.segment s).isLine = (c1 == (f.knot i).anchor && c2 == (f.knot j).anchor)

structure RaisesSegment (f f' : Figure α) (i j s s' : ℕ) : Prop where
  joins : f.Joins s i j
  joins' : f'.Joins s' i j
  start : (f'.knot i).anchor = (f.knot i).anchor
  stop : (f'.knot j).anchor = (f.knot j).anchor
  order : (f'.segment s').order = .cubic
  line : (f.segment s).isLine = true → (f'.segment s').isLine = true
  cubic : (f.segment s).isLine = false → (f.segment s).order = .cubic →
    f'.HasControls s' i j (f.knot i).leaving (f.knot j).arriving
  quadratic : (f.segment s).isLine = false → (f.segment s).order = .quadratic →
    f'.HasControls s' i j (Stroke.elevated (f.knot i).anchor (f.knot i).leaving)
      (Stroke.elevated (f.knot j).anchor (f.knot i).leaving)

/-- A figure has the contours of another one, with the same knots and with cubic segments for all
segments. -/
structure Raises (f f' : Figure α) : Prop where
  contours : f'.contours = f.contours
  isClosed : ∀ c ∈ f.contours, f'.isClosed c = f.isClosed c
  contourKnots : ∀ c ∈ f.contours, f'.contourKnots c = f.contourKnots c
  resembles : ∀ c ∈ f.contours, ∀ i ∈ f.contourKnots c, (f'.knot i).Resembles (f.knot i)
  segments : ∀ c ∈ f.contours, List.Forall₂ (fun s s' => ∃ i j, f.RaisesSegment f' i j s s')
    (f.contourSegments c) (f'.contourSegments c)

theorem RaisesStroke.hasControls {s s' i j : ℕ} {c1 c2 : Point α} (h : f.RaisesStroke f' s i j)
    (hs : f.Joins s i j) (hs' : f'.Joins s' i j) (hi : (f'.knot i).anchor = (f.knot i).anchor)
    (hj : (f'.knot j).anchor = (f.knot j).anchor)
    (hcontrols : (f.stroke s false).raisedControls = some (c1, c2)) :
    f'.HasControls s' i j c1 c2 := by
  have hout : (f'.knot i).controlOut = if c1 == (f'.knot i).anchor then none else some c1 := by
    rw [h.departing, Stroke.departing, hcontrols, hi, ← hs.start]
    rfl
  have hin : (f'.knot j).controlIn = if c2 == (f'.knot j).anchor then none else some c2 := by
    rw [h.arriving, Stroke.arriving, hcontrols, hj, ← hs.stop]
    rfl
  refine ⟨hout, hin, ?_⟩
  rw [hs'.isLine, hout, hin]
  cases c1 == (f'.knot i).anchor <;> cases c2 == (f'.knot j).anchor <;> rfl

theorem RaisesStroke.raisesSegment {s s' i j : ℕ} (h : f.RaisesStroke f' s i j)
    (hs : f.Joins s i j) (hs' : f'.Joins s' i j) (hi : (f'.knot i).anchor = (f.knot i).anchor)
    (hj : (f'.knot j).anchor = (f.knot j).anchor) (horder : f'.HasOrder .cubic) :
    f.RaisesSegment f' i j s s' := by
  refine ⟨hs, hs', hi, hj, ?_, fun hline => ?_, fun hcurve hcubic => ?_,
    fun hcurve hquadratic => ?_⟩
  · rw [f'.segment_eq_getElem hs'.segment_lt]
    exact horder _ (Array.getElem_mem hs'.segment_lt)
  · have hcontrols : (f.stroke s false).raisedControls = none := if_pos hline
    rw [hs'.isLine, h.departing, h.arriving, Stroke.departing, Stroke.arriving, hcontrols]
    rfl
  · refine h.hasControls hs hs' hi hj ?_
    simp [Stroke.raisedControls, stroke, hcurve, hcubic, hs.start, hs.stop]
  · refine h.hasControls hs hs' hi hj ?_
    simp [Stroke.raisedControls, stroke, hcurve, hquadratic, hs.start, hs.stop]

theorem IsTraced.isClosed_eq (h : f.IsTraced c) :
    f.isClosed c = (f.knot c.last).segmentOut.isSome := by
  rcases h.ends with hloose | ⟨s, hs⟩
  · rw [isClosed, hloose.segmentOut]
    rfl
  · rw [h.isClosed_iff.mpr ⟨s, hs⟩, hs.segmentOut]
    rfl

theorem RaisesContour.segments (h : f.RaisesContour f' c) (hf : f.IsTraced c) (hf' : f'.IsTraced c)
    (horder : f'.HasOrder .cubic) :
    List.Forall₂ (fun s s' => ∃ i j, f.RaisesSegment f' i j s s') (f.contourSegments c)
      (f'.contourSegments c) := by
  have hle := hf.path.le
  have hanchor (i : ℕ) (hi : c.first ≤ i) (hi' : i ≤ c.last) := (h.resembles i hi hi').anchor
  rw [hf.contourSegments, hf'.contourSegments]
  refine List.rel_append ?_ ?_
  · rw [List.forall₂_map_left_iff, List.forall₂_map_right_iff, List.forall₂_same]
    intro i hi
    obtain ⟨hfirst, hlast⟩ := List.mem_range'_1.mp hi
    exact ⟨i, i + 1, (h.inner i hfirst (by omega)).raisesSegment
      (hf.path.joins_leavingSegment hfirst (by omega))
      (hf'.path.joins_leavingSegment hfirst (by omega)) (hanchor i hfirst (by omega))
      (hanchor (i + 1) (by omega) (by omega)) horder⟩
  · rcases hf.ends with hloose | ⟨s, hs⟩ <;> rcases hf'.ends with hloose' | ⟨s', hs'⟩
    · rw [hloose.segmentOut, hloose'.segmentOut]
      exact .nil
    · have hout := h.segmentOut
      rw [hloose.segmentOut, hs'.segmentOut] at hout
      cases hout
    · have hout := h.segmentOut
      rw [hs.segmentOut, hloose'.segmentOut] at hout
      cases hout
    · rw [hs.segmentOut, hs'.segmentOut]
      exact .cons ⟨c.last, c.first, (h.closing s hs.segmentOut).raisesSegment hs hs'
        (hanchor _ hle le_rfl) (hanchor _ le_rfl hle) horder⟩ .nil

theorem HasOrder.redraw (f : Figure α) (accuracy : α) :
    (f.redraw .cubic accuracy).HasOrder .cubic := by
  have hall (contours : List Contour) {b : Builder α} (hb : b.HasOrder .cubic) :
      (contours.foldl (f.redrawContour .cubic accuracy) b).HasOrder .cubic := by
    induction contours generalizing b with
    | nil => exact hb
    | cons c contours ih => exact ih (hb.redrawContour f accuracy c)
  rw [Figure.redraw, ← Array.foldl_toList]
  exact ((hall f.contours.toList (.empty .cubic)).endContour false).figure

theorem IsNeat.raises (hself : ∀ p q : Point α, p.isClose q = true → p.isClose p = true)
    (hf : f.IsNeat) (hapart : ∀ c ∈ f.contours, f.EndsApart c) (accuracy : α) :
    f.Raises (f.redraw .cubic accuracy) := by
  have hmem : ∀ c ∈ f.contours.toList, c ∈ f.contours ∧ f.EndsApart c := fun c hc =>
    ⟨Array.mem_toList_iff.mp hc, hapart c (Array.mem_toList_iff.mp hc)⟩
  obtain ⟨hcontours, hsize, hneat, hraises⟩ := hf.foldl_redrawContour hself accuracy
    hf.tiled.tiles hmem (Builder.isNeat_empty .cubic) rfl
    fun c hc => absurd hc (Array.not_mem_empty c)
  have hredraw : f.redraw .cubic accuracy =
      (f.contours.toList.foldl (f.redrawContour .cubic accuracy) { order := .cubic }).finish := by
    rw [Figure.redraw, ← Array.foldl_toList]
  rw [← hredraw] at hcontours hneat hraises
  have hsame : (f.redraw .cubic accuracy).contours = f.contours := Array.toList_inj.mp hcontours
  have hall (c : Contour) (hc : c ∈ f.contours) := hraises c (hsame ▸ hc)
  have htraced (c : Contour) (hc : c ∈ f.contours) := hneat.traced (hsame ▸ hc : c ∈ _)
  refine ⟨hsame, fun c hc => ?_, fun c hc => ?_, fun c hc i hi => ?_, fun c hc => ?_⟩
  · rw [(htraced c hc).isClosed_eq, (hf.traced hc).isClosed_eq, (hall c hc).segmentOut]
  · rw [(htraced c hc).contourKnots, (hf.traced hc).contourKnots]
  · rw [(hf.traced hc).contourKnots] at hi
    obtain ⟨hfirst, hlast⟩ := List.mem_range'_1.mp hi
    exact (hall c hc).resembles i hfirst (by have := (hf.traced hc).path.le; omega)
  · exact (hall c hc).segments (hf.traced hc) (htraced c hc) (.redraw f accuracy)

end Figure

-- ---------------------------------------------------------------------------
-- Curves
-- ---------------------------------------------------------------------------

def Point.onQuadratic (p c q : Point α) (t : α) : Point α :=
  let s := 1 - t
  p.scale (s * s) + (c.scale (2 * s * t) + q.scale (t * t))

section

variable [ExactScalar α]

open ExactScalar

/-- Without rounding, a cubic curve with elevated control points runs as the quadratic one does. -/
theorem Cubic.eval_elevated (p c q : Point α) (t : α) :
    (⟨p, Stroke.elevated p c, Stroke.elevated q c, q⟩ : Cubic α).eval t =
      Point.onQuadratic p c q t := by
  have hthird : value (2 / 3 : α) = 2 / 3 := by
    rw [value_div _ (by simp)]
    simp
  have hadd (p q : Point α) : p + q = p.add q := rfl
  have hsub (p q : Point α) : p - q = p.sub q := rfl
  refine Point.ext_value ?_ ?_ <;>
    simp [eval, Stroke.elevated, Point.onQuadratic, hadd, hsub, Point.add, Point.sub, Point.scale,
      hthird] <;> ring

theorem Point.getD_dropped (c p : Point α) : (if c == p then none else some c).getD p = c := by
  split_ifs with h
  · have h : (c.x == p.x && c.y == p.y) = true := h
    obtain ⟨hx, hy⟩ := Bool.and_eq_true_iff.mp h
    exact (Point.ext_value (beq_iff.mp hx) (beq_iff.mp hy)).symm
  · rfl

theorem Figure.RaisesSegment.eval {f f' : Figure α} {i j s s' : ℕ}
    (h : f.RaisesSegment f' i j s s') (hcurve : (f.segment s).isLine = false)
    (hquadratic : (f.segment s).order = .quadratic) (t : α) :
    (f'.stroke s' false).cubic.eval t =
      Point.onQuadratic (f.knot i).anchor (f.knot i).leaving (f.knot j).anchor t := by
  obtain ⟨hout, hin, -⟩ := h.quadratic hcurve hquadratic
  have hcubic : (f'.stroke s' false).cubic =
      ⟨(f'.knot i).anchor, (f'.knot i).leaving, (f'.knot j).arriving, (f'.knot j).anchor⟩ := by
    rw [← h.joins'.start, ← h.joins'.stop]
    rfl
  rw [hcubic, Knot.leaving, Knot.arriving, hout, hin, Point.getD_dropped, Point.getD_dropped,
    h.start, h.stop, Cubic.eval_elevated]

end

-- ---------------------------------------------------------------------------
-- Glyphs
-- ---------------------------------------------------------------------------

theorem Glyph.raises_convert {g : Glyph α}
    (hself : ∀ p q : Point α, p.isClose q = true → p.isClose p = true)
    (hdrawn : ∀ f ∈ g.figures, f.IsDrawn)
    (hapart : ∀ f ∈ g.figures, ∀ c ∈ f.contours, f.EndsApart c) (accuracy : α) :
    (g.convert .postscript accuracy).hasCurves .quadratic = false ∧
      List.Forall₂ Figure.Raises g.figures (g.convert .postscript accuracy).figures := by
  constructor
  · refine List.any_eq_false.mpr fun f' hf' => ?_
    obtain ⟨f, -, rfl⟩ := List.mem_map.mp hf'
    have hcurves : (f.redraw .cubic accuracy).hasCurves .quadratic = false :=
      (Figure.HasOrder.redraw f accuracy).hasCurves (by decide)
    rw [Bool.not_eq_true]
    exact hcurves
  · unfold Glyph.convert
    rw [List.forall₂_map_right_iff, List.forall₂_same]
    exact fun f hf => (hdrawn f hf).isNeat.raises hself (hapart f hf) accuracy

theorem Double.isClose_left {p q : Point Float} (h : p.isClose q = true) : p.isClose p = true := by
  obtain ⟨hx, hy⟩ := Bool.and_eq_true_iff.mp h
  exact Bool.and_eq_true_iff.mpr ⟨Double.isClose_self hx, Double.isClose_self hy⟩

/-- A glyph has only cubic curves once it has been converted. Its contours keep their order, their
ends and their knots, and what was quadratic runs as before but for rounding. -/
theorem Glyph.convert_postscript {g : Glyph Float} (hdrawn : ∀ f ∈ g.figures, f.IsDrawn)
    (hapart : ∀ f ∈ g.figures, ∀ c ∈ f.contours, f.EndsApart c) (accuracy : Float) :
    (g.convert .postscript accuracy).hasCurves .quadratic = false ∧
      List.Forall₂ Figure.Raises g.figures (g.convert .postscript accuracy).figures ∧
      ∀ (β : Type) [Scalar β] [ExactScalar β] {f f' : Figure β} {i j s s' : ℕ},
        f.RaisesSegment f' i j s s' → (f.segment s).isLine = false →
          (f.segment s).order = .quadratic → ∀ t,
            (f'.stroke s' false).cubic.eval t =
              Point.onQuadratic (f.knot i).anchor (f.knot i).leaving (f.knot j).anchor t := by
  obtain ⟨hcurves, hraises⟩ :=
    raises_convert (fun _ _ => Double.isClose_left) hdrawn hapart accuracy
  exact ⟨hcurves, hraises, fun _ _ _ _ _ _ _ _ _ h => h.eval⟩

/-- A lens that a curve closes, an arch that stays open, and a single point. -/
def lensCalls : List (Call Float) :=
  [.draw (.moveTo ⟨0, 0⟩), .put 0 (.number (some 1)), .draw (.quadTo ⟨48, 96⟩ ⟨96, 0⟩),
    .put 1 (.mask (some ⟨1⟩)), .draw (.quadTo ⟨48, -96⟩ ⟨0, 0⟩), .draw .close,
    .draw (.moveTo ⟨192, 0⟩), .draw (.lineTo ⟨192, 96⟩), .draw (.quadTo ⟨240, 192⟩ ⟨288, 96⟩),
    .draw (.moveTo ⟨0, 384⟩)]

def lens : Figure Float := (({ order := .quadratic } : Builder Float).callAll lensCalls).finish

def lensGlyph : Glyph Float := { Glyph.empty .truetype with figures := [lens] }

theorem Glyph.convert_postscript_lens :
    (∀ f ∈ lensGlyph.figures, f.IsDrawn) ∧
      (∀ f ∈ lensGlyph.figures, ∀ c ∈ f.contours, f.EndsApart c) ∧
      lensGlyph.hasCurves .quadratic = true ∧
      (lensGlyph.convert .postscript defaultAccuracy).hasCurves .quadratic = false ∧
      List.Forall₂ Figure.Raises lensGlyph.figures
        (lensGlyph.convert .postscript defaultAccuracy).figures := by
  have hdrawn : ∀ f ∈ lensGlyph.figures, f.IsDrawn :=
    List.forall_mem_singleton.mpr ⟨.quadratic, lensCalls, rfl⟩
  have hapart : ∀ f ∈ lensGlyph.figures, ∀ c ∈ f.contours, f.EndsApart c := by decide +kernel
  obtain ⟨hcurves, hraises, -⟩ := convert_postscript hdrawn hapart defaultAccuracy
  exact ⟨hdrawn, hapart, by decide +kernel, hcurves, hraises⟩

end Letterform
