import Letterform.Proofs.Outline.Drawn
import Letterform.Proofs.Outline.LeftOut

/-!
# All points of a quadratic figure lie on its contours

A quadratic curve has one control point, which the knots at both its ends keep, and no other knot has
any. So the anchors and control points in the table of a figure that was drawn are those that its
contours come to.
-/

namespace Letterform

variable {α : Type} [Scalar α]

-- ---------------------------------------------------------------------------
-- Both knots of a curve
-- ---------------------------------------------------------------------------

namespace Figure

/-- The knots at the ends of a quadratic segment have the same control point on its side. -/
def SharesControls (f : Figure α) : Prop :=
  ∀ s < f.segments.size, (f.segment s).order = .quadratic →
    (f.knot (f.segment s).start).controlOut = (f.knot (f.segment s).stop).controlIn

variable {f f' : Figure α}

namespace SharesControls

theorem congr (h : f.SharesControls) (hjoined : ∀ s < f.segments.size, ∃ i j, f.Joins s i j)
    (hsegments : f'.segments = f.segments)
    (hknots : ∀ s i j, f.Joins s i j → (f'.knot i).controlOut = (f.knot i).controlOut ∧
      (f'.knot j).controlIn = (f.knot j).controlIn) : f'.SharesControls := by
  intro s hs horder
  have hsegment : f'.segment s = f.segment s := by rw [segment, segment, hsegments]
  rw [hsegments] at hs
  rw [hsegment] at horder ⊢
  obtain ⟨i, j, hjoins⟩ := hjoined s hs
  obtain ⟨hout, hin⟩ := hknots s i j hjoins
  have hold := h s hs horder
  rw [hjoins.start, hjoins.stop] at hold ⊢
  rw [hout, hin, hold]

theorem connect {a b : ℕ} {order : CurveOrder} (h : f.SharesControls)
    (hne : a ≠ b) (ha : a < f.knots.size) (hb : b < f.knots.size)
    (hab : order = .quadratic → (f.knot a).controlOut = (f.knot b).controlIn) :
    (f.connect a b order).SharesControls := by
  have hknot (i : ℕ) : ((f.connect a b order).knot i).controlOut = (f.knot i).controlOut ∧
      ((f.connect a b order).knot i).controlIn = (f.knot i).controlIn := by
    rw [knot_connect f a b order hne ha hb]
    split_ifs with hi hi'
    · rw [hi]
      exact ⟨rfl, rfl⟩
    · rw [hi']
      exact ⟨rfl, rfl⟩
    · exact ⟨rfl, rfl⟩
  intro s hs horder
  rw [segment_of_push (segments_connect f a b order)] at horder ⊢
  rw [(hknot _).1, (hknot _).2]
  split_ifs at horder ⊢ with hnew
  · exact hab horder
  · rw [segments_connect, Array.size_push] at hs
    exact h s (by omega) horder

theorem joinLast {first last before segment : ℕ} (h : f.SharesControls)
    (hjoined : ∀ s < f.segments.size, ∃ i j, f.Joins s i j) (hsize : last + 1 = f.knots.size)
    (hfirst : first < last) (hloose : f.IsLoose first last)
    (hsegment : f.Joins segment before last) :
    (Builder.joinLast f first (f.knot last) segment).SharesControls := by
  have hknot (i : ℕ) (hi : i + 1 < f.knots.size) :=
    Builder.knot_joinLast f first (f.knot last) segment i (by omega) hi
  intro s hs horder
  have hs' : s < f.segments.size := by simpa [Builder.joinLast] using hs
  have hseg := Builder.segment_joinLast f first (f.knot last) segment s hs'
  obtain ⟨i, j, hjoins⟩ := hjoined s hs'
  have hi : i ≠ last := by
    rintro rfl
    have := hjoins.segmentOut
    rw [hloose.segmentOut] at this
    cases this
  have hi_lt := hjoins.start_lt
  have hj_lt := hjoins.stop_lt
  obtain ⟨_, _, _, hk⟩ := Builder.knot_joinLast_leaving f first (f.knot last) segment i (by omega)
    (by omega)
  have hout : ((Builder.joinLast f first (f.knot last) segment).knot i).controlOut =
      (f.knot i).controlOut := by
    rw [hk]
  have hold : (f.segment s).order = .quadratic →
      (f.knot i).controlOut = (f.knot j).controlIn := by
    have := h s hs'
    rwa [hjoins.start, hjoins.stop] at this
  by_cases heq : s = segment
  · -- The segment that arrived at the last knot takes its control point to the first one.
    obtain rfl : j = last := hjoins.stop.symm.trans (heq ▸ hsegment.stop)
    rw [hseg, if_pos heq] at horder ⊢
    dsimp only at horder ⊢
    rw [hjoins.start, hout, hold horder, hknot first (by omega), if_pos rfl]
  · have hj : j ≠ last := by
      rintro rfl
      have := hjoins.segmentIn
      rw [hsegment.segmentIn] at this
      exact heq (Option.some.inj this).symm
    have hj' : j ≠ first := by
      rintro rfl
      have := hjoins.segmentIn
      rw [hloose.segmentIn] at this
      cases this
    rw [hseg, if_neg heq] at horder ⊢
    rw [hjoins.start, hjoins.stop, hout, hold horder, hknot j (by omega), if_neg hj']

end SharesControls

end Figure

namespace Builder

variable {b : Builder α} {first last : ℕ}

/-- What is known of a builder between two calls, its control points included. -/
structure IsBent (b : Builder α) : Prop where
  neat : b.IsNeat
  shares : b.figure.SharesControls

theorem isBent_empty (order : CurveOrder) : ({ order } : Builder α).IsBent :=
  ⟨isNeat_empty order, nofun⟩

namespace IsBent

theorem joined (h : b.IsBent) : ∀ s < b.figure.segments.size, ∃ i j, b.figure.Joins s i j := by
  have hsound := h.neat.sound
  rcases hpath : b.path with _ | ⟨first, last⟩
  · exact ((isSound_of_none hpath).mp hsound).joined
  · exact ((isSound_of_some hpath).mp hsound).tiled.joined

theorem modifyShape (h : b.IsBent) (n : ℕ) {change : Knot α → Knot α}
    (hchange : Knot.KeepsShape change) : (b.modifyKnot n change).IsBent := by
  have hknot (i : ℕ) := Figure.knot_modifyShape b.figure n i hchange
  exact ⟨h.neat.modifyShape n hchange, h.shares.congr h.joined rfl fun s i j _ =>
    ⟨(hknot i).2.2.1, (hknot j).2.1⟩⟩

theorem endContour (h : b.IsBent) (close : Bool) : (b.endContour close).IsBent := by
  refine ⟨h.neat.endContour close, ?_⟩
  rcases hpath : b.path with _ | ⟨first, last⟩
  · rw [Builder.endContour, hpath]
    exact h.shares
  have hdrawing := (isSound_of_some hpath).mp h.neat.sound
  have hbare := h.neat.bare first last hpath
  have hle := hdrawing.path.le
  have hsize := hdrawing.size
  rw [h.neat.figure_endContour hpath]
  split_ifs with hsame hmeets hclose
  · exact h.shares
  · have hs := hdrawing.path.joins_leavingSegment (i := last - 1) (by omega) (by omega)
    rw [Nat.sub_add_cancel (by omega)] at hs
    exact h.shares.joinLast h.joined hsize (by omega) hdrawing.loose hs
  · exact h.shares.connect (Ne.symm hsame) (by omega) (by omega) fun _ =>
      hbare.controlOut.trans hbare.controlIn.symm
  · exact h.shares

theorem moveTo (h : b.IsBent) (p : Point α) : (b.moveTo p).IsBent := by
  have hend := h.endContour false
  refine ⟨h.neat.moveTo p, hend.shares.congr hend.joined rfl fun s i j hjoins => ?_⟩
  have hknot := Figure.knot_addKnot (b.endContour false).figure { anchor := p }
  rw [Builder.moveTo, hknot, hknot, if_neg hjoins.start_lt.ne, if_neg hjoins.stop_lt.ne]
  exact ⟨rfl, rfl⟩

theorem start (h : b.IsBent) (p : Point α) : (b.start p).IsBent := by
  unfold Builder.start
  split
  · exact h
  · exact h.moveTo p

theorem draw (h : b.IsBent) {change : Knot α → Knot α} {k : Knot α} {order : CurveOrder}
    (hin : ∀ k, (change k).segmentIn = k.segmentIn ∧ (change k).controlIn = k.controlIn)
    (hout : ∀ k, (change k).segmentOut = k.segmentOut)
    (hshares : order = .quadratic → ∀ first last, b.path = some (first, last) →
      (change (b.figure.knot last)).controlOut = k.controlIn)
    (hneat : ((b.modifyCurrent change).extend k order).IsNeat) :
    ((b.modifyCurrent change).extend k order).IsBent := by
  refine ⟨hneat, ?_⟩
  rcases hpath : b.path with _ | ⟨first, last⟩
  · rw [draw_none hpath]
    exact h.shares
  have hdrawing := (isSound_of_some hpath).mp h.neat.sound
  have hsize := hdrawing.size
  have hjoined := hdrawing.tiled.joined
  have hmodified := hdrawing.modifyLast hin hout
  have hchanged := Figure.knot_modifyKnot b.figure last
  have hcontrols : (b.figure.modifyKnot last change).SharesControls := by
    refine h.shares.congr hjoined rfl fun s i j hjoins => ?_
    have hi : last ≠ i := by
      rintro rfl
      have := hjoins.segmentOut
      rw [hdrawing.loose.segmentOut] at this
      cases this
    rw [hchanged, hchanged, if_neg fun h => hi h.1]
    refine ⟨rfl, ?_⟩
    split_ifs
    · exact (hin _).2
    · rfl
  have hknot := Figure.knot_addKnot (b.figure.modifyKnot last change) k
  rw [Figure.size_modifyKnot] at hknot
  have hadded : ((b.figure.modifyKnot last change).addKnot k).SharesControls := by
    refine hcontrols.congr hmodified.tiled.joined rfl fun s i j hjoins => ?_
    have hi := hjoins.start_lt
    have hj := hjoins.stop_lt
    rw [Figure.size_modifyKnot] at hi hj
    rw [hknot, hknot, if_neg hi.ne, if_neg hj.ne]
    exact ⟨rfl, rfl⟩
  rw [modifyCurrent_eq hpath,
    extend_eq (show (b.modifyKnot last change).path = some (first, last) from hpath)]
  simp only [modifyKnot, Figure.size_modifyKnot]
  refine hadded.connect (by omega) (by simp; omega) (by simp) fun horder => ?_
  rw [hknot, hknot, if_neg (by omega), if_pos rfl, hchanged, if_pos ⟨rfl, by omega⟩]
  exact hshares horder first last hpath

theorem lineTo (h : b.IsBent) (p : Point α) : (b.lineTo p).IsBent := by
  have hneat := h.neat.lineTo p
  have hline : b.lineTo p =
      ((b.start p).modifyCurrent id).extend { anchor := p } (b.start p).order := by
    rw [modifyCurrent_id]
    rfl
  rw [hline] at hneat ⊢
  exact (h.start p).draw (fun _ => ⟨rfl, rfl⟩) (fun _ => rfl)
    (fun _ first last hpath => ((h.start p).neat.bare first last hpath).controlOut) hneat

theorem obey (h : b.IsBent) (command : PenCommand α) : (b.obey command).IsBent := by
  have hneat := h.neat.obey command
  cases command with
  | moveTo p => exact h.moveTo p
  | lineTo p => exact h.lineTo p
  | quadTo c p =>
    exact (h.start c).draw (fun _ => ⟨rfl, rfl⟩) (fun _ => rfl) (fun _ _ _ _ => rfl) hneat
  | curveTo c1 c2 p => exact (h.start c1).draw (fun _ => ⟨rfl, rfl⟩) (fun _ => rfl) nofun hneat
  | close => exact h.endContour true

theorem callAll (h : b.IsBent) (calls : List (Call α)) : (b.callAll calls).IsBent := by
  induction calls generalizing b with
  | nil => exact h
  | cons c rest ih =>
    refine ih (b := b.call c) ?_
    cases c with
    | draw command => exact h.obey command
    | put i a => exact h.modifyShape i a.keepsShape

end IsBent

end Builder

namespace Figure

variable {f : Figure α}

theorem IsDrawn.sharesControls (h : f.IsDrawn) : f.SharesControls := by
  obtain ⟨order, calls, rfl⟩ := h
  exact (((Builder.isBent_empty order).callAll calls).endContour false).shares

-- ---------------------------------------------------------------------------
-- Control points and segments
-- ---------------------------------------------------------------------------

theorem IsNeat.exists_contour (h : f.IsNeat) {i : ℕ} (hi : i < f.knots.size) :
    ∃ c ∈ f.contours, c.first ≤ i ∧ i ≤ c.last ∧ i ∈ f.contourKnots c := by
  obtain ⟨c, hc, hfirst, hlast⟩ := h.tiled.tiles.exists_mem (Nat.zero_le i) hi
  refine ⟨c, Array.mem_toList_iff.mp hc, hfirst, hlast, ?_⟩
  rw [(h.tiled.traced c hc).contourKnots, List.mem_range'_1]
  omega

theorem IsNeat.eq_empty (h : f.IsNeat) (hempty : f.isEmpty = true) :
    f.knots = #[] ∧ f.segments = #[] := by
  have hcontours : f.contours = #[] := Array.isEmpty_iff.mp hempty
  have hknots : f.knots.size = 0 := by
    by_contra hne
    obtain ⟨c, hc, -⟩ := h.exists_contour (Nat.pos_of_ne_zero hne)
    rw [hcontours] at hc
    exact Array.not_mem_empty c hc
  refine ⟨Array.size_eq_zero_iff.mp hknots, Array.size_eq_zero_iff.mp ?_⟩
  by_contra hne
  obtain ⟨i, j, hs⟩ := h.tiled.joined 0 (Nat.pos_of_ne_zero hne)
  have hlt := hs.start_lt
  omega

theorem IsNeat.controlOut_eq_none (h : f.IsNeat) {i : ℕ} (hi : i < f.knots.size)
    (hout : (f.knot i).segmentOut = none) : (f.knot i).controlOut = none := by
  obtain ⟨c, hc, hfirst, hlast, -⟩ := h.exists_contour hi
  have htraced := h.traced hc
  by_cases hlt : i < c.last
  · obtain ⟨s, hs⟩ := htraced.path.joins i hfirst hlt
    rw [hs.segmentOut] at hout
    cases hout
  · obtain rfl : i = c.last := by omega
    rcases h.ends c hc with ⟨hbare, -⟩ | ⟨hsome, -⟩
    · exact hbare.controlOut
    · rw [hout] at hsome
      cases hsome

theorem IsNeat.controlIn_eq_none (h : f.IsNeat) {j : ℕ} (hj : j < f.knots.size)
    (hin : (f.knot j).segmentIn = none) : (f.knot j).controlIn = none := by
  obtain ⟨c, hc, hfirst, hlast, -⟩ := h.exists_contour hj
  have htraced := h.traced hc
  by_cases hlt : c.first < j
  · obtain ⟨s, hs⟩ := htraced.path.joins (j - 1) (by omega) (by omega)
    rw [Nat.sub_add_cancel (by omega)] at hs
    rw [hs.segmentIn] at hin
    cases hin
  · obtain rfl : j = c.first := by omega
    rcases h.ends c hc with ⟨hbare, -⟩ | ⟨hsome, -⟩
    · exact hbare.controlIn
    · rcases htraced.ends with hloose | ⟨s, hs⟩
      · rw [hloose.segmentOut] at hsome
        cases hsome
      · rw [hs.segmentIn] at hin
        cases hin

omit [Scalar α] in
theorem order_of_hasCurves (hcurves : f.hasCurves .cubic = false) {s : ℕ}
    (hs : s < f.segments.size) (hline : (f.segment s).isLine = false) :
    (f.segment s).order = .quadratic := by
  rw [segment_eq_getElem f hs] at hline ⊢
  rw [hasCurves, Array.any_eq_false] at hcurves
  have hcubic := hcurves s hs
  rw [hline] at hcubic
  cases horder : f.segments[s].order with
  | quadratic => rfl
  | cubic =>
    rw [horder] at hcubic
    exact absurd rfl hcubic

-- ---------------------------------------------------------------------------
-- Points of knots and points of contours
-- ---------------------------------------------------------------------------

theorem IsDrawn.order_of_joins (h : f.IsDrawn) (hcurves : f.hasCurves .cubic = false) {s i j : ℕ}
    (hs : f.Joins s i j) :
    (f.segment s).isLine = (f.knot i).controlOut.isNone ∧
      (f.knot i).controlOut = (f.knot j).controlIn ∧
      ((f.segment s).isLine = false → (f.segment s).order = .quadratic) := by
  have hshares : (f.segment s).order = .quadratic →
      (f.knot i).controlOut = (f.knot j).controlIn := by
    have := h.sharesControls s hs.segment_lt
    rwa [hs.start, hs.stop] at this
  have horder := order_of_hasCurves hcurves hs.segment_lt
  have hline := hs.isLine
  have heq : (f.knot i).controlOut = (f.knot j).controlIn := by
    cases hout : (f.segment s).isLine with
    | true =>
      rw [hout, eq_comm, Bool.and_eq_true, Option.isNone_iff_eq_none,
        Option.isNone_iff_eq_none] at hline
      exact hline.1.trans hline.2.symm
    | false => exact hshares (horder hout)
  rw [← heq, Bool.and_self] at hline
  exact ⟨hline, heq, horder⟩

theorem IsDrawn.map_position_pointsFrom (h : f.IsDrawn) (hcurves : f.hasCurves .cubic = false)
    {i : ℕ} (hi : i < f.knots.size) :
    (f.pointsFrom i).map (·.position) = (f.knot i).anchor :: (f.knot i).controlOut.toList := by
  cases hout : (f.knot i).segmentOut with
  | none =>
    rw [h.isNeat.controlOut_eq_none hi hout]
    simp [pointsFrom, hout]
  | some s =>
    obtain ⟨j, hs⟩ := h.isNeat.tiled.isWellFormed.segmentOut i hi s hout
    obtain ⟨hline, -, horder⟩ := h.order_of_joins hcurves hs
    cases hcontrol : (f.knot i).controlOut with
    | none =>
      rw [hcontrol] at hline
      simp [pointsFrom, hout, hline]
    | some p =>
      rw [hcontrol] at hline
      simp [pointsFrom, hout, hline, horder hline, Knot.leaving, hcontrol]

/-- The anchors and control points of a drawn figure without cubic curves are the points of its
contours. -/
theorem IsDrawn.mem_points (h : f.IsDrawn) (hcurves : f.hasCurves .cubic = false) {p : Point α} :
    p ∈ f.points ↔ ∃ c ∈ f.contours, ∃ q ∈ f.allPoints c, q.position = p := by
  have hneat := h.isNeat
  have hwell := hneat.tiled.isWellFormed
  have hfrom {i : ℕ} (hi : i < f.knots.size)
      (hp : p ∈ (f.knot i).anchor :: (f.knot i).controlOut.toList) :
      ∃ c ∈ f.contours, ∃ q ∈ f.allPoints c, q.position = p := by
    obtain ⟨c, hc, -, -, hmem⟩ := hneat.exists_contour hi
    rw [← h.map_position_pointsFrom hcurves hi] at hp
    obtain ⟨q, hq, rfl⟩ := List.mem_map.mp hp
    exact ⟨c, hc, q, List.mem_flatMap.mpr ⟨i, hmem, hq⟩, rfl⟩
  constructor
  · intro hp
    obtain ⟨k, hk, hp⟩ := List.mem_flatMap.mp hp
    obtain ⟨i, hi, rfl⟩ := List.getElem_of_mem hk
    rw [Array.length_toList] at hi
    rw [Array.getElem_toList, ← knot_eq_getElem f hi] at hp
    rcases List.mem_cons.mp hp with rfl | hp
    · exact hfrom hi List.mem_cons_self
    rcases List.mem_append.mp hp with hp | hp
    · -- A control point in front of a knot stands behind the one before it.
      have hin : (f.knot i).controlIn = some p := Option.mem_toList.mp hp
      cases hsegment : (f.knot i).segmentIn with
      | none =>
        rw [hneat.controlIn_eq_none hi hsegment] at hin
        cases hin
      | some s =>
        obtain ⟨j, hs⟩ := hwell.segmentIn i hi s hsegment
        obtain ⟨-, hshares, -⟩ := h.order_of_joins hcurves hs
        refine hfrom hs.start_lt (List.mem_cons_of_mem _ ?_)
        rw [hshares, hin]
        exact List.mem_singleton_self p
    · exact hfrom hi (List.mem_cons_of_mem _ hp)
  · rintro ⟨c, hc, q, hq, rfl⟩
    obtain ⟨i, hi, hq⟩ := List.mem_flatMap.mp hq
    have hlt : i < f.knots.size := by
      rw [← List.mem_range, ← hwell.knots]
      exact List.mem_flatMap.mpr ⟨c, Array.mem_toList_iff.mpr hc, hi⟩
    have hmem := List.mem_map_of_mem (f := (·.position)) hq
    rw [h.map_position_pointsFrom hcurves hlt] at hmem
    refine List.mem_flatMap.mpr ⟨f.knot i, ?_, ?_⟩
    · rw [knot_eq_getElem f hlt]
      exact Array.getElem_mem_toList hlt
    · rcases List.mem_cons.mp hmem with heq | hmem
      · rw [heq]
        exact List.mem_cons_self
      · exact List.mem_cons_of_mem _ (List.mem_append_right _ hmem)

theorem IsDrawn.points_of_isEmpty (h : f.IsDrawn) (hempty : f.isEmpty = true) : f.points = [] := by
  rw [points, (h.isNeat.eq_empty hempty).1]
  rfl

end Figure

end Letterform
