import Letterform.Proofs.Charstring.Retracing
import Letterform.Proofs.Outline.Closing
import Letterform.Proofs.Outline.Redrawing

/-!
# Outlines that are drawn alike

Two figures are alike if they have the same knots and the same traces; they may differ in lines that
close contours, and so in the names of segments. Builders that are alike stay so, also if one of
them closes a contour that the other one leaves open.
-/

namespace Letterform

variable {α : Type} [Scalar α]

omit [Scalar α] in
theorem Knot.leg_congr {k k' l l' : Knot α} (hk : k'.unlinked = k.unlinked)
    (hl : l'.unlinked = l.unlinked) : k'.leg l' = k.leg l := by
  show k'.unlinked.leg l'.unlinked = k.unlinked.leg l.unlinked
  rw [hk, hl]

omit [Scalar α] in
theorem Stroke.leg_unlinked (s : Stroke α) : s.unlinked.leg = s.leg := rfl

namespace Figure

variable {f f' g g' : Figure α} {c : Contour}

/-- The same knots, with segments that make no difference to the traces of contours. -/
structure Alike (f f' : Figure α) : Prop where
  contours : f'.contours = f.contours
  size : f'.knots.size = f.knots.size
  knot : ∀ i, (f'.knot i).unlinked = (f.knot i).unlinked
  returning : ∀ c ∈ f.contours, f'.returning c = f.returning c

theorem returning_congr (hfirst : f'.knot c.first = f.knot c.first)
    (hlast : f'.knot c.last = f.knot c.last) : f'.returning c = f.returning c := by
  rw [Figure.returning, Figure.returning, hfirst, hlast]

theorem returning_of_unlinked (hfirst : (f'.knot c.first).unlinked = (f.knot c.first).unlinked)
    (hlast : (f'.knot c.last).unlinked = (f.knot c.last).unlinked)
    (hout : f.IsBare c.first c.last ∨
      (f'.knot c.last).segmentOut.isSome = (f.knot c.last).segmentOut.isSome) :
    f'.returning c = f.returning c := by
  have hleg := Knot.leg_congr hlast hfirst
  unfold Figure.returning
  rw [hleg]
  rcases hout with hbare | hout
  · have hline : ((f.knot c.last).leg (f.knot c.first)).controls = none := by
      rw [Knot.leg, hbare.controlOut, hbare.controlIn]
      rfl
    simp [hline]
  · rw [hout]

namespace Alike

theorem trace (h : f.Alike f') (hf : f.IsTraced c) (hf' : f'.IsTraced c) (hc : c ∈ f.contours) :
    f'.trace c = f.trace c := by
  have hinner : f'.inner c = f.inner c :=
    List.map_congr_left fun i _ => Knot.leg_congr (h.knot i) (h.knot (i + 1))
  refine hf'.trace_eq ?_ ?_ (by rw [hf.legs, hinner, h.returning c hc])
  · exact (congrArg Knot.anchor (h.knot c.first) :)
  · exact (congrArg Knot.mask (h.knot c.first) :)

theorem of_above (h : f.Alike f') {n : ℕ} (hlt : ∀ c ∈ f.contours, c.first < n ∧ c.last < n)
    (hcontours : g.contours = f.contours) (hcontours' : g'.contours = f'.contours)
    (hsize : g'.knots.size = g.knots.size) (hbelow : ∀ i < n, g.knot i = f.knot i)
    (hbelow' : ∀ i < n, g'.knot i = f'.knot i)
    (hknot : ∀ i, (g'.knot i).unlinked = (g.knot i).unlinked) : g.Alike g' := by
  refine ⟨by rw [hcontours', hcontours, h.contours], hsize, hknot, fun c hc => ?_⟩
  rw [hcontours] at hc
  obtain ⟨hfirst, hlast⟩ := hlt c hc
  rw [returning_congr (hbelow' _ hfirst) (hbelow' _ hlast), h.returning c hc,
    returning_congr (hbelow _ hfirst) (hbelow _ hlast)]

theorem addContour (h : f.Alike f') (hreturning : f'.returning c = f.returning c) :
    (f.addContour c).Alike (f'.addContour c) := by
  refine ⟨by simp only [Figure.addContour, h.contours], h.size, h.knot, fun d hd => ?_⟩
  rcases Array.mem_push.mp hd with hd | rfl
  · exact h.returning d hd
  · exact hreturning

end Alike

theorem GainsLines.alike (h : f.GainsLines f') (hf : f.IsNeat) (hf' : f'.IsNeat) : f.Alike f' := by
  refine ⟨h.contours, h.size, h.knot, fun c hc => ?_⟩
  have htraced := hf.traced hc
  have htraced' := hf'.traced (h.contours ▸ hc)
  have hlegs (f : Figure α) : (f.closingStroke c).map Stroke.leg =
      ((f.closingStroke c).map Stroke.unlinked).map Stroke.leg := by
    rw [List.map_map]
    exact List.map_congr_left fun s _ => (Stroke.leg_unlinked s).symm
  rw [← map_closingStroke htraced, ← map_closingStroke htraced', hlegs f',
    h.closingStroke (hf.ends c hc) htraced htraced', ← hlegs f]

-- ---------------------------------------------------------------------------
-- The ends of contours
-- ---------------------------------------------------------------------------

section Ends

variable {first last : ℕ}

theorem unlinked_connect {start stop : ℕ} (order : CurveOrder) (hne : start ≠ stop)
    (hstart : start < f.knots.size) (hstop : stop < f.knots.size) (i : ℕ) :
    ((f.connect start stop order).knot i).unlinked = (f.knot i).unlinked := by
  rw [knot_connect f start stop order hne hstart hstop]
  split_ifs with hi hi'
  · rw [hi]
    rfl
  · rw [hi']
    rfl
  · rfl

theorem unlinked_joinLast (hsize : last + 1 = f.knots.size) (hsize' : f'.knots.size = f.knots.size)
    (hfirst : first < last) (segment segment' : ℕ)
    (hknot : ∀ i, (f'.knot i).unlinked = (f.knot i).unlinked) (i : ℕ) :
    ((Builder.joinLast f' first (f'.knot last) segment').knot i).unlinked =
      ((Builder.joinLast f first (f.knot last) segment).knot i).unlinked := by
  by_cases hi : i < last
  · rw [Builder.knot_joinLast f first _ segment i (by omega) (by omega),
      Builder.knot_joinLast f' first _ segment' i (by omega) (by omega)]
    split_ifs with hif
    · have hfirst := hknot first
      have hlast := hknot last
      simp only [Knot.unlinked, Knot.mk.injEq] at hfirst hlast ⊢
      rw [hfirst.1, hfirst.2.2.1, hfirst.2.2.2.1, hlast.2.1, hlast.2.2.2.1]
      simp [hfirst]
    · exact hknot i
  · have hsmall (f : Figure α) (segment : ℕ) (hsize : last + 1 = f.knots.size) :
        (Builder.joinLast f first (f.knot last) segment).knots.size = last := by
      rw [Builder.size_joinLast, ← hsize, Nat.add_sub_cancel]
    rw [knot_of_size_le _ (by rw [hsmall f' _ (by omega)]; omega),
      knot_of_size_le _ (by rw [hsmall f _ (by omega)]; omega)]

theorem IsDrawing.knot_connect (hf : f.IsDrawing first last) (hne : first ≠ last)
    (order : CurveOrder) {i : ℕ} (hi : i < first) :
    (f.connect last first order).knot i = f.knot i := by
  have hle := hf.path.le
  have hsize := hf.size
  rw [Figure.knot_connect f last first order hne.symm (by omega) (by omega), if_neg hi.ne,
    if_neg (by omega)]

variable (h : f.Alike f') (hlt : ∀ c ∈ f.contours, c.first < first ∧ c.last < first)
  (hf : f.IsDrawing first last) (hf' : f'.IsDrawing first last) (hne : first ≠ last)

include h hlt hf hf' hne

theorem Alike.join :
    ((Builder.joinLast f first (f.knot last) (f.leavingSegment (last - 1))).addContour
      ⟨first, last - 1⟩).Alike
    ((Builder.joinLast f' first (f'.knot last) (f'.leavingSegment (last - 1))).addContour
      ⟨first, last - 1⟩) := by
  have hle := hf.path.le
  have hkept {f : Figure α} (hf : f.IsDrawing first last) (i : ℕ) (hi : i < first) :
      (Builder.joinLast f first (f.knot last) (f.leavingSegment (last - 1))).knot i =
        f.knot i := by
    have hsize := hf.size
    rw [Builder.knot_joinLast _ _ _ _ _ (by omega) (by omega), if_neg hi.ne]
  have hout {f : Figure α} (hf : f.IsDrawing first last) :
      ((Builder.joinLast f first (f.knot last) (f.leavingSegment (last - 1))).knot
        (last - 1)).segmentOut.isSome = true := by
    have hsize := hf.size
    have hs := hf.path.joins_leavingSegment (i := last - 1) (by omega) (by omega)
    rw [Builder.knot_joinLast _ _ _ _ _ (by omega) (by omega)]
    split_ifs with hi
    · rw [← hi, hs.segmentOut]
      rfl
    · rw [hs.segmentOut]
      rfl
  have hjoined := h.of_above hlt (Builder.contours_joinLast f first (f.knot last)
    (f.leavingSegment (last - 1))) (Builder.contours_joinLast f' first (f'.knot last)
      (f'.leavingSegment (last - 1))) (by simp [h.size]) (hkept hf) (hkept hf')
    (unlinked_joinLast hf.size h.size (by omega) _ _ h.knot)
  exact hjoined.addContour (returning_of_unlinked (hjoined.knot _) (hjoined.knot _)
    (.inr ((hout hf').trans (hout hf).symm)))

theorem Alike.connect (order order' : CurveOrder) :
    ((f.connect last first order).addContour ⟨first, last⟩).Alike
      ((f'.connect last first order').addContour ⟨first, last⟩) := by
  have hle := hf.path.le
  have hsize := hf.size
  have hsize' := hf'.size
  have hclosed := h.of_above hlt (contours_connect f last first order)
    (contours_connect f' last first order') (by simp [h.size])
    (fun _ => hf.knot_connect hne order) (fun _ => hf'.knot_connect hne order') fun i =>
      (unlinked_connect order' hne.symm (by omega) (by omega) i).trans
        ((h.knot i).trans (unlinked_connect order hne.symm (by omega) (by omega) i).symm)
  refine hclosed.addContour (returning_of_unlinked (hclosed.knot _) (hclosed.knot _) (.inr ?_))
  rw [Figure.knot_connect f last first order hne.symm (by omega) (by omega), if_neg hne.symm,
    if_pos rfl, Figure.knot_connect f' last first order' hne.symm (by omega) (by omega),
    if_neg hne.symm, if_pos rfl]
  rfl

/-- A contour without control points at its ends is closed by a line in one of the figures. -/
theorem Alike.connect_right (hbare : f.IsBare first last) (order : CurveOrder) :
    (f.addContour ⟨first, last⟩).Alike
      ((f'.connect last first order).addContour ⟨first, last⟩) := by
  have hle := hf.path.le
  have hsize' := hf'.size
  have hclosed := h.of_above hlt rfl (contours_connect f' last first order) (by simp [h.size])
    (fun _ _ => rfl) (fun _ => hf'.knot_connect hne order) fun i =>
      (unlinked_connect order hne.symm (by omega) (by omega) i).trans (h.knot i)
  exact hclosed.addContour (returning_of_unlinked (hclosed.knot _) (hclosed.knot _) (.inl hbare))

end Ends

end Figure

-- ---------------------------------------------------------------------------
-- Builders
-- ---------------------------------------------------------------------------

/-- A change of a knot that is the same whatever its segments are. -/
def Knot.IgnoresSegments (change : Knot α → Knot α) : Prop :=
  ∀ k k' : Knot α, k'.unlinked = k.unlinked → (change k').unlinked = (change k).unlinked

omit [Scalar α] in
theorem Knot.ignoresSegments_control (control : Point α → Option (Point α)) :
    Knot.IgnoresSegments fun k => { k with controlOut := control k.anchor } := by
  intro k k' h
  show ({ k'.unlinked with controlOut := control k'.unlinked.anchor } : Knot α) =
    { k.unlinked with controlOut := control k.unlinked.anchor }
  rw [h]

namespace Builder

structure Alike (b b' : Builder α) : Prop where
  neat : b.IsNeat
  neat' : b'.IsNeat
  path : b'.path = b.path
  figure : b.figure.Alike b'.figure

namespace Alike

variable {b b' : Builder α} {change : Knot α → Knot α}

theorem modifyCurrent (h : b.Alike b') (hshape : Knot.KeepsShape change)
    (hchange : Knot.IgnoresSegments change) :
    (b.modifyCurrent change).Alike (b'.modifyCurrent change) := by
  rcases hpath : b.path with _ | ⟨first, last⟩
  · have hnone (b : Builder α) (hpath : b.path = none) : b.modifyCurrent change = b := by
      rw [Builder.modifyCurrent, current, hpath]
      rfl
    rwa [hnone b hpath, hnone b' (h.path.trans hpath)]
  have hpath' := h.path.trans hpath
  have hneat := h.neat.modifyCurrent hshape
  have hneat' := h.neat'.modifyCurrent hshape
  rw [modifyCurrent_eq hpath] at hneat ⊢
  rw [modifyCurrent_eq hpath'] at hneat' ⊢
  have hle := (h.neat.sound.first_le hpath).1
  refine ⟨hneat, hneat', h.path, h.figure.of_above (n := first)
    (fun c hc => h.neat.sound.contour_lt hpath hc) rfl rfl ?_ (fun i hi => ?_) (fun i hi => ?_)
    fun i => ?_⟩
  · simp only [modifyKnot, Figure.size_modifyKnot, h.figure.size]
  · rw [modifyKnot, Figure.knot_modifyKnot, if_neg (by omega)]
  · rw [modifyKnot, Figure.knot_modifyKnot, if_neg (by omega)]
  · rw [modifyKnot, modifyKnot, Figure.knot_modifyKnot, Figure.knot_modifyKnot, h.figure.size]
    split_ifs
    · exact hchange _ _ (h.figure.knot i)
    · exact h.figure.knot i

theorem draw (h : b.Alike b') {k : Knot α} {order order' : CurveOrder}
    (hchange : Knot.IgnoresSegments change)
    (hneat : ((b.modifyCurrent change).extend k order).IsNeat)
    (hneat' : ((b'.modifyCurrent change).extend k order').IsNeat) :
    ((b.modifyCurrent change).extend k order).Alike
      ((b'.modifyCurrent change).extend k order') := by
  rcases hpath : b.path with _ | ⟨first, last⟩
  · rwa [draw_none hpath, draw_none (h.path.trans hpath)]
  have hpath' := h.path.trans hpath
  obtain ⟨hdrawn, hcontours, hsize⟩ := draw_spec h.neat.sound hpath change k order
  obtain ⟨hdrawn', hcontours', hsize'⟩ := draw_spec h.neat'.sound hpath' change k order'
  have hknot := knot_draw h.neat.sound hpath change k order
  have hknot' := knot_draw h.neat'.sound hpath' change k order'
  have hle := (h.neat.sound.first_le hpath).1
  refine ⟨hneat, hneat', hdrawn'.trans hdrawn.symm, h.figure.of_above (n := first)
    (fun c hc => h.neat.sound.contour_lt hpath hc) hcontours hcontours' (hsize'.trans hsize.symm)
    (fun i hi => ?_) (fun i hi => ?_) fun i => ?_⟩
  · rw [hknot, if_neg (by omega), if_neg (by omega)]
  · rw [hknot', if_neg (by omega), if_neg (by omega)]
  · rw [hknot, hknot']
    split_ifs
    · rfl
    · exact hchange _ _ (h.figure.knot last)
    · exact h.figure.knot i

theorem endContour (h : b.Alike b') {close close' : Bool} (hclose : close = true → close' = true) :
    (b.endContour close).Alike (b'.endContour close') := by
  refine ⟨h.neat.endContour close, h.neat'.endContour close',
    (path_endContour close').trans (path_endContour close).symm, ?_⟩
  rcases hpath : b.path with _ | ⟨first, last⟩
  · rw [Builder.endContour, Builder.endContour, hpath, h.path, hpath]
    exact h.figure
  have hpath' := h.path.trans hpath
  have hdrawing := (isSound_of_some hpath).mp h.neat.sound
  have hdrawing' := (isSound_of_some hpath').mp h.neat'.sound
  have hbare := h.neat.bare first last hpath
  have hlt (c : Contour) (hc : c ∈ b.figure.contours) := h.neat.sound.contour_lt hpath hc
  have hanchor (i : ℕ) : (b'.figure.knot i).anchor = (b.figure.knot i).anchor :=
    (congrArg Knot.anchor (h.figure.knot i) :)
  have hopen : (b.figure.addContour ⟨first, last⟩).Alike (b'.figure.addContour ⟨first, last⟩) :=
    h.figure.addContour (Figure.returning_of_unlinked (h.figure.knot first) (h.figure.knot last)
      (.inl hbare))
  rw [h.neat.figure_endContour hpath, h.neat'.figure_endContour hpath', hanchor, hanchor]
  split_ifs with hsame hmeets hcl hcl' hcl'
  · exact hopen
  · exact h.figure.join hlt hdrawing hdrawing' hsame
  · exact h.figure.connect hlt hdrawing hdrawing' hsame b.order b'.order
  · exact absurd (hclose hcl) hcl'
  · exact h.figure.connect_right hlt hdrawing hdrawing' hsame hbare b'.order
  · exact hopen

theorem moveTo (h : b.Alike b') (p : Point α) : (b.moveTo p).Alike (b'.moveTo p) := by
  have hend : (b.endContour false).Alike (b'.endContour false) := h.endContour id
  have htiled := (isSound_of_none (path_endContour false)).mp hend.neat.sound
  have hknot := Figure.knot_addKnot (b.endContour false).figure { anchor := p }
  have hknot' := Figure.knot_addKnot (b'.endContour false).figure { anchor := p }
  rw [hend.figure.size] at hknot'
  refine ⟨h.neat.moveTo p, h.neat'.moveTo p, ?_, hend.figure.of_above
    (n := (b.endContour false).figure.knots.size) (fun c hc => ?_) rfl rfl ?_ (fun i hi => ?_)
    (fun i hi => ?_) fun i => ?_⟩
  · simp only [Builder.moveTo, hend.figure.size]
  · have htraced := htiled.traced c (Array.mem_toList_iff.mpr hc)
    exact ⟨htraced.path.le.trans_lt htraced.path.lt, htraced.path.lt⟩
  · simp only [Builder.moveTo, Figure.size_addKnot, hend.figure.size]
  · exact (hknot i).trans (if_neg hi.ne)
  · exact (hknot' i).trans (if_neg hi.ne)
  · simp only [Builder.moveTo, hknot, hknot']
    split_ifs
    · rfl
    · exact hend.figure.knot i

theorem start (h : b.Alike b') (p : Point α) : (b.start p).Alike (b'.start p) := by
  unfold Builder.start
  rw [h.path]
  split
  · exact h
  · exact h.moveTo p

theorem obey (h : b.Alike b') (command : PenCommand α) :
    (b.obey command).Alike (b'.obey command) := by
  have hneat := h.neat.obey command
  have hneat' := h.neat'.obey command
  cases command with
  | moveTo p => exact h.moveTo p
  | lineTo p =>
    have hline (b : Builder α) : b.obey (.lineTo p) =
        ((b.start p).modifyCurrent id).extend { anchor := p } (b.start p).order := by
      rw [modifyCurrent_id]
      rfl
    rw [hline] at hneat hneat' ⊢
    rw [hline]
    exact (h.start p).draw (fun _ _ => id) hneat hneat'
  | quadTo c p =>
    exact (h.start c).draw (Knot.ignoresSegments_control fun _ => some c) hneat hneat'
  | curveTo c1 c2 p =>
    exact (h.start c1).draw (Knot.ignoresSegments_control fun anchor =>
      if c1 == anchor then none else some c1) hneat hneat'
  | close => exact h.endContour id

end Alike

end Builder

-- ---------------------------------------------------------------------------
-- Figures that are drawn again
-- ---------------------------------------------------------------------------

namespace Builder

variable {b b' : Builder α}

theorem Alike.inherit (h : b.Alike b') (k : Knot α) :
    (Figure.inherit b k).Alike (Figure.inherit b' k) := by
  refine h.modifyCurrent k.keepsShape_inherit fun l l' hl => ?_
  show ({ l'.unlinked with mask := k.mask, number := k.number } : Knot α) =
    { l.unlinked with mask := k.mask, number := k.number }
  rw [hl]

theorem Alike.redrawStrokes (h : b.Alike b') (accuracy : α) (strokes : List (Stroke α)) :
    (strokes.foldl (Figure.redrawStroke .cubic accuracy) b).Alike
      (strokes.foldl (Figure.redrawStroke .cubic accuracy) b') := by
  induction strokes generalizing b b' with
  | nil => exact h
  | cons s strokes ih =>
    refine ih ?_
    unfold Figure.redrawStroke
    dsimp only
    rw [s.draw_cubic, s.draw_cubic]
    split_ifs
    · exact h.obey s.raised
    · exact (h.obey s.raised).inherit s.stop

end Builder

namespace Figure

variable {f f' : Figure α} {c : Contour} {b b' : Builder α}

theorem foldl_redrawStroke_unlinked (order : CurveOrder) (accuracy : α) (b : Builder α)
    (strokes : List (Stroke α)) :
    (strokes.map Stroke.unlinked).foldl (redrawStroke order accuracy) b =
      strokes.foldl (redrawStroke order accuracy) b :=
  List.foldl_map

theorem GainsLines.redrawContour (h : f.GainsLines f') (hf : f.IsNeat) (hf' : f'.IsNeat)
    (hc : c ∈ f.contours) (accuracy : α)
    (hb : (b.endContour false).Alike (b'.endContour false)) :
    ((f.redrawContour .cubic accuracy b c).endContour false).Alike
      ((f'.redrawContour .cubic accuracy b' c).endContour false) := by
  have hfirst (b : Builder α) : inherit b (f'.knot c.first) = inherit b (f.knot c.first) := by
    show inherit b (f'.knot c.first).unlinked = inherit b (f.knot c.first).unlinked
    rw [h.knot]
  have hmove := (hb.moveTo (f.knot c.first).anchor).inherit (f.knot c.first)
  rw [Builder.moveTo_endContour, Builder.moveTo_endContour] at hmove
  have hstrokes := hmove.redrawStrokes accuracy ((f.strokes c).map Stroke.unlinked)
  rw [endContour_redrawContour, endContour_redrawContour, h.anchor, hfirst,
    ← foldl_redrawStroke_unlinked, ← foldl_redrawStroke_unlinked _ _ _ (f'.strokes c),
    h.strokes hf hf' hc]
  exact hstrokes.endContour (h.isClosed (hf.traced hc) (hf'.traced (h.contours ▸ hc)))

/-- A figure and one with lines that close its contours are alike when they have been drawn
again. -/
theorem GainsLines.redraw (h : f.GainsLines f') (hf : f.IsNeat) (hf' : f'.IsNeat) (accuracy : α) :
    (f.redraw .cubic accuracy).IsNeat ∧ (f'.redraw .cubic accuracy).IsNeat ∧
      (f.redraw .cubic accuracy).Alike (f'.redraw .cubic accuracy) := by
  have hcontours (contours : List Contour) (hmem : ∀ c ∈ contours, c ∈ f.contours)
      {b b' : Builder α} (hb : (b.endContour false).Alike (b'.endContour false)) :
      ((contours.foldl (f.redrawContour .cubic accuracy) b).endContour false).Alike
        ((contours.foldl (f'.redrawContour .cubic accuracy) b').endContour false) := by
    induction contours generalizing b b' with
    | nil => exact hb
    | cons c contours ih =>
      obtain ⟨hc, hmem⟩ := List.forall_mem_cons.mp hmem
      exact ih hmem (h.redrawContour hf hf' hc accuracy hb)
  have hempty : ({ order := .cubic } : Builder α).Alike { order := .cubic } :=
    ⟨Builder.isNeat_empty .cubic, Builder.isNeat_empty .cubic, rfl, rfl, rfl, fun _ => rfl,
      fun _ _ => rfl⟩
  have hall := hcontours f.contours.toList (fun _ => Array.mem_toList_iff.mp)
    (hempty.endContour (id : false = true → false = true))
  have hneat {b : Builder α} (hb : (b.endContour false).IsNeat) : b.finish.IsNeat := by
    have hfinish := hb.finish
    rwa [Builder.finish, Builder.endContour_endContour] at hfinish
  unfold Figure.redraw
  rw [← Array.foldl_toList, ← Array.foldl_toList, h.contours]
  exact ⟨hneat hall.neat, hneat hall.neat', hall.figure⟩

end Figure

end Letterform
