import Letterform.Proofs.Outline.Drawn

/-!
# Contours that are closed

An open contour is closed by a line from its last knot to its first one. A line is all that a figure
gains by it: what has been there stays, and a contour is drawn as before since a line that closes it
goes without saying.
-/

namespace Letterform

variable {α : Type}

def Knot.unlinked (k : Knot α) : Knot α := { k with segmentIn := none, segmentOut := none }

theorem Knot.eq_of_unlinked {k k' : Knot α} (h : k'.unlinked = k.unlinked)
    (hin : k'.segmentIn = k.segmentIn) (hout : k'.segmentOut = k.segmentOut) : k' = k := by
  obtain ⟨anchor, controlIn, controlOut, mask, number, controlNumber, segmentIn, segmentOut⟩ := k
  obtain ⟨anchor', controlIn', controlOut', mask', number', controlNumber', segmentIn',
    segmentOut'⟩ := k'
  cases h
  cases hin
  cases hout
  rfl

variable [Scalar α]

def Stroke.unlinked (s : Stroke α) : Stroke α :=
  { s with start := s.start.unlinked, stop := s.stop.unlinked }

theorem Stroke.command_unlinked (s : Stroke α) : s.unlinked.command = s.command := rfl

namespace Figure

variable {f f' f'' : Figure α} {c : Contour}

structure GainsLines (f f' : Figure α) : Prop where
  contours : f'.contours = f.contours
  size : f'.knots.size = f.knots.size
  segments_le : f.segments.size ≤ f'.segments.size
  segment : ∀ s < f.segments.size, f'.segment s = f.segment s
  isLine : ∀ s < f'.segments.size, f.segments.size ≤ s → (f'.segment s).isLine = true
  knot : ∀ i, (f'.knot i).unlinked = (f.knot i).unlinked
  segmentIn : ∀ {i s}, (f.knot i).segmentIn = some s → (f'.knot i).segmentIn = some s
  segmentOut : ∀ {i s}, (f.knot i).segmentOut = some s → (f'.knot i).segmentOut = some s

namespace GainsLines

theorem refl (f : Figure α) : f.GainsLines f :=
  ⟨rfl, rfl, le_rfl, fun _ _ => rfl, fun _ hs hle => absurd hs hle.not_gt, fun _ => rfl, id, id⟩

theorem trans (h : f.GainsLines f') (h' : f'.GainsLines f'') : f.GainsLines f'' where
  contours := h'.contours.trans h.contours
  size := h'.size.trans h.size
  segments_le := h.segments_le.trans h'.segments_le
  segment s hs := (h'.segment s (hs.trans_le h.segments_le)).trans (h.segment s hs)
  isLine s hs hle := by
    by_cases hlt : s < f'.segments.size
    · rw [h'.segment s hlt, h.isLine s hlt hle]
    · exact h'.isLine s hs (not_lt.mp hlt)
  knot i := (h'.knot i).trans (h.knot i)
  segmentIn hs := h'.segmentIn (h.segmentIn hs)
  segmentOut hs := h'.segmentOut (h.segmentOut hs)

theorem anchor (h : f.GainsLines f') (i : ℕ) : (f'.knot i).anchor = (f.knot i).anchor :=
  (congrArg Knot.anchor (h.knot i) :)

theorem controlIn (h : f.GainsLines f') (i : ℕ) :
    (f'.knot i).controlIn = (f.knot i).controlIn :=
  (congrArg Knot.controlIn (h.knot i) :)

theorem controlOut (h : f.GainsLines f') (i : ℕ) :
    (f'.knot i).controlOut = (f.knot i).controlOut :=
  (congrArg Knot.controlOut (h.knot i) :)

theorem joins (h : f.GainsLines f') {s i j : ℕ} (hs : f.Joins s i j) : f'.Joins s i j :=
  hs.congr (hs.segment_lt.trans_le h.segments_le) (h.size ▸ hs.start_lt) (h.size ▸ hs.stop_lt)
    (h.segment s hs.segment_lt) ((h.segmentOut hs.segmentOut).trans hs.segmentOut.symm)
    (h.controlOut i) ((h.segmentIn hs.segmentIn).trans hs.segmentIn.symm) (h.controlIn j)

theorem hasEnd (h : f.GainsLines f') (hc : f.HasEnd c) (hsingle : c.first = c.last →
    (f.knot c.last).segmentOut = none → (f'.knot c.last).segmentOut = none) : f'.HasEnd c := by
  rcases hc with ⟨hbare, hnone⟩ | ⟨hsome, p, hp⟩
  · exact .inl ⟨⟨(h.controlIn _).trans hbare.controlIn,
      (h.controlOut _).trans hbare.controlOut⟩, fun hsame => hsingle hsame (hnone hsame)⟩
  · obtain ⟨s, hs⟩ := Option.isSome_iff_exists.mp hsome
    exact .inr ⟨by rw [h.segmentOut hs]; rfl, p, by rw [h.anchor, hp]⟩

theorem isClosed (h : f.GainsLines f') (htraced : f.IsTraced c) (htraced' : f'.IsTraced c)
    (hclosed : f.isClosed c = true) : f'.isClosed c = true := by
  obtain ⟨s, hs⟩ := htraced.isClosed_iff.mp hclosed
  exact htraced'.isClosed_iff.mpr ⟨s, h.joins hs⟩

end GainsLines

-- ---------------------------------------------------------------------------
-- One contour
-- ---------------------------------------------------------------------------

omit [Scalar α] in
theorem Tiles.le_first {start stop : ℕ} {contours : List Contour}
    (h : Tiles start contours stop) : ∀ d ∈ contours, start ≤ d.first := by
  induction contours generalizing start with
  | nil => exact nofun
  | cons d rest ih =>
    obtain ⟨rfl, hle, hrest⟩ := h
    exact List.forall_mem_cons.mpr ⟨le_rfl, fun e he =>
      hle.trans ((Nat.le_succ _).trans (ih hrest e he))⟩

omit [Scalar α] in
theorem Tiles.eq_or_lt {start stop : ℕ} {contours : List Contour} {d : Contour}
    (h : Tiles start contours stop) (hc : c ∈ contours) (hd : d ∈ contours) :
    c = d ∨ c.last < d.first ∨ d.last < c.first := by
  induction contours generalizing start with
  | nil => cases hc
  | cons e rest ih =>
    obtain ⟨rfl, hle, hrest⟩ := h
    rcases List.mem_cons.mp hc with rfl | hc' <;> rcases List.mem_cons.mp hd with rfl | hd'
    · exact .inl rfl
    · exact .inr (.inl (hrest.le_first d hd'))
    · exact .inr (.inr (hrest.le_first c hc'))
    · exact ih hrest hc' hd'

theorem IsNeat.of_gainsLines (h : f.IsNeat) (hgains : f.GainsLines f')
    (hends : ∀ d ∈ f.contours, f.IsLoose d.first d.last →
      f'.IsLoose d.first d.last ∨ d.first ≠ d.last ∧ ∃ s, f'.Joins s d.last d.first)
    (hjoined : ∀ s < f'.segments.size, f.segments.size ≤ s → ∃ i j, f'.Joins s i j) :
    f'.IsNeat := by
  refine ⟨⟨fun d hd => ?_, fun s hs => ?_, ?_⟩, fun d hd => ?_⟩
  · rw [hgains.contours] at hd
    have htraced := h.tiled.traced d hd
    refine ⟨⟨htraced.path.le, by rw [hgains.size]; exact htraced.path.lt, fun i hi hlt => ?_⟩, ?_⟩
    · exact ⟨_, hgains.joins (htraced.path.joins_leavingSegment hi hlt)⟩
    · rcases htraced.ends with hloose | ⟨s, hs⟩
      · exact (hends d (Array.mem_toList_iff.mp hd) hloose).imp_right And.right
      · exact .inr ⟨s, hgains.joins hs⟩
  · by_cases hlt : s < f.segments.size
    · obtain ⟨i, j, hs⟩ := h.tiled.joined s hlt
      exact ⟨i, j, hgains.joins hs⟩
    · exact hjoined s hs (not_lt.mp hlt)
  · rw [hgains.contours, hgains.size]
    exact h.tiled.tiles
  · rw [hgains.contours] at hd
    refine hgains.hasEnd (h.ends d hd) fun hsame hnone => ?_
    have hloose : f.IsLoose d.first d.last := (h.traced hd).ends.resolve_right fun ⟨s, hs⟩ => by
      rw [hs.segmentOut] at hnone
      cases hnone
    rcases hends d hd hloose with hloose' | ⟨hne, -⟩
    · exact hloose'.segmentOut
    · exact absurd hsame hne

theorem IsNeat.gainsLines_connect (h : f.IsNeat) (hc : c ∈ f.contours) (hne : c.first ≠ c.last)
    (hloose : f.IsLoose c.first c.last) (order : CurveOrder) :
    f.GainsLines (f.connect c.last c.first order) := by
  have hlt := (h.traced hc).path.lt
  have hfirst := (h.traced hc).path.le.trans_lt hlt
  have hbare : f.IsBare c.first c.last := (h.ends c hc).isBare hloose
  have hknot := knot_connect f c.last c.first order hne.symm hlt hfirst
  have hsegment := segment_of_push (segments_connect f c.last c.first order)
  have hsize : (f.connect c.last c.first order).segments.size = f.segments.size + 1 := by
    rw [segments_connect, Array.size_push]
  refine ⟨rfl, size_connect .., by omega, fun s hs => ?_, fun s hs hle => ?_, fun i => ?_,
    fun {i s} hs => ?_, fun {i s} hs => ?_⟩
  · rw [hsegment, if_neg hs.ne]
  · rw [hsegment, if_pos (by omega), hbare.controlIn, hbare.controlOut]
    rfl
  · rw [hknot]
    split_ifs with hi hi'
    · rw [hi]
      rfl
    · rw [hi']
      rfl
    · rfl
  · have hi : i ≠ c.first := by
      rintro rfl
      rw [hloose.segmentIn] at hs
      cases hs
    rw [hknot, if_neg hi]
    split_ifs with hi'
    · rw [← hs, hi']
    · exact hs
  · have hi : i ≠ c.last := by
      rintro rfl
      rw [hloose.segmentOut] at hs
      cases hs
    rw [hknot]
    split_ifs with hi'
    · rw [← hs, hi']
    · exact hs

theorem IsNeat.connect (h : f.IsNeat) (hc : c ∈ f.contours) (hne : c.first ≠ c.last)
    (hloose : f.IsLoose c.first c.last) (order : CurveOrder) :
    (f.connect c.last c.first order).IsNeat := by
  have htraced := h.traced hc
  have hle := htraced.path.le
  have hlt := htraced.path.lt
  have hknot := knot_connect f c.last c.first order hne.symm hlt (hle.trans_lt hlt)
  have hjoin := joins_connect hne.symm hlt (hle.trans_lt hlt) order
  refine h.of_gainsLines (h.gainsLines_connect hc hne hloose order) (fun d hd hd' => ?_)
    fun s hs hsize => ?_
  · rcases h.tiled.tiles.eq_or_lt (Array.mem_toList_iff.mpr hc) (Array.mem_toList_iff.mpr hd)
      with rfl | hapart
    · exact .inr ⟨hne, _, hjoin⟩
    · have hle' := (h.traced hd).path.le
      refine .inl ⟨?_, ?_⟩
      · rw [hknot, if_neg (by omega), if_neg (by omega), hd'.segmentIn]
      · rw [hknot, if_neg (by omega), if_neg (by omega), hd'.segmentOut]
  · rw [segments_connect, Array.size_push] at hs
    obtain rfl : s = f.segments.size := by omega
    exact ⟨_, _, hjoin⟩

theorem IsNeat.closeContour (h : f.IsNeat) (i : ℕ) (order : CurveOrder) :
    f.GainsLines (f.closeContour i order) ∧ (f.closeContour i order).IsNeat ∧
      ∀ c, f.contours[i]? = some c → c.first ≠ c.last →
        (f.closeContour i order).isClosed c = true := by
  unfold Figure.closeContour
  cases hc : f.contours[i]? with
  | none => exact ⟨.refl f, h, nofun⟩
  | some c =>
    dsimp only
    split_ifs with hclosed
    · refine ⟨.refl f, h, ?_⟩
      rintro _ ⟨⟩ hne
      exact hclosed.resolve_left hne
    obtain ⟨hne, hopen⟩ := not_or.mp hclosed
    have hmem := Array.mem_of_getElem? hc
    have htraced := h.traced hmem
    have hloose : f.IsLoose c.first c.last :=
      htraced.ends.resolve_right fun hs => hopen (htraced.isClosed_iff.mpr hs)
    have hbare : f.IsBare c.first c.last := (h.ends c hmem).isBare hloose
    -- There is nothing to be cleared.
    rw [modifyKnot_eq_self f c.last (by rw [← hbare.controlOut]),
      modifyKnot_eq_self f c.first (by rw [← hbare.controlIn])]
    have hneat := h.connect hmem hne hloose order
    refine ⟨h.gainsLines_connect hmem hne hloose order, hneat, ?_⟩
    rintro _ ⟨⟩ -
    exact (hneat.traced hmem).isClosed_iff.mpr ⟨_, joins_connect (Ne.symm hne) htraced.path.lt
      (htraced.path.le.trans_lt htraced.path.lt) order⟩

-- ---------------------------------------------------------------------------
-- All contours
-- ---------------------------------------------------------------------------

def closeAll (f : Figure α) (order : CurveOrder) : Figure α :=
  (List.range f.contours.size).foldl (·.closeContour · order) f

theorem IsNeat.closeFirst (h : f.IsNeat) (order : CurveOrder) (n : ℕ) :
    let f' := (List.range n).foldl (·.closeContour · order) f
    f.GainsLines f' ∧ f'.IsNeat ∧
      ∀ i < n, ∀ c, f.contours[i]? = some c → c.first ≠ c.last → f'.isClosed c = true := by
  induction n with
  | zero => exact ⟨.refl f, h, nofun⟩
  | succ n ih =>
    intro f'
    obtain ⟨hgains, hneat, hclosed⟩ := ih
    obtain ⟨hstep, hneat', hclosed'⟩ := hneat.closeContour n order
    have hf' : f' = ((List.range n).foldl (·.closeContour · order) f).closeContour n order := by
      simp only [f', List.range_succ, List.foldl_append, List.foldl_cons, List.foldl_nil]
    rw [hf']
    refine ⟨hgains.trans hstep, hneat', fun i hi c hc hne => ?_⟩
    rcases Nat.lt_succ_iff_lt_or_eq.mp hi with hlt | rfl
    · have hmem : c ∈ ((List.range n).foldl (·.closeContour · order) f).contours := by
        rw [hgains.contours]
        exact Array.mem_of_getElem? hc
      refine hstep.isClosed (hneat.traced hmem) (hneat'.traced ?_) (hclosed i hlt c hc hne)
      rwa [hstep.contours]
    · exact hclosed' c (by rwa [hgains.contours]) hne

theorem IsNeat.closeAll (h : f.IsNeat) (order : CurveOrder) :
    f.GainsLines (f.closeAll order) ∧ (f.closeAll order).IsNeat ∧
      ∀ c ∈ f.contours, c.first ≠ c.last → (f.closeAll order).isClosed c = true := by
  obtain ⟨hgains, hneat, hclosed⟩ := h.closeFirst order f.contours.size
  refine ⟨hgains, hneat, fun c hc hne => ?_⟩
  obtain ⟨i, hi, rfl⟩ := Array.mem_iff_getElem.mp hc
  exact hclosed i hi _ (Array.getElem?_eq_getElem hi) hne

theorem closeAll_eq_self {order : CurveOrder}
    (h : ∀ c ∈ f.contours, c.first ≠ c.last → f.isClosed c = true) : f.closeAll order = f := by
  have hstep (i : ℕ) : f.closeContour i order = f := by
    unfold closeContour
    split
    · rfl
    · rename_i c hc
      have hclosed := h c (Array.mem_of_getElem? hc)
      rw [if_pos (or_iff_not_imp_left.mpr hclosed)]
  unfold closeAll
  induction List.range f.contours.size with
  | nil => rfl
  | cons i rest ih => rw [List.foldl_cons, hstep, ih]

-- ---------------------------------------------------------------------------
-- What is drawn
-- ---------------------------------------------------------------------------

omit [Scalar α] in
theorem hasCurves_iff (f : Figure α) (order : CurveOrder) : f.hasCurves order = true ↔
    ∃ s < f.segments.size, (f.segment s).isLine = false ∧ (f.segment s).order = order := by
  rw [Figure.hasCurves, Array.any_eq_true]
  refine exists_congr fun s => ⟨fun ⟨hs, h⟩ => ⟨hs, ?_⟩, fun ⟨hs, h⟩ => ⟨hs, ?_⟩⟩
  · simpa [f.segment_eq_getElem hs] using h
  · simpa [f.segment_eq_getElem hs] using h

namespace GainsLines

section

variable (h : f.GainsLines f')

include h

theorem stroke {s i j : ℕ} (hs : f.Joins s i j) (isClosing : Bool) :
    (f'.stroke s isClosing).unlinked = (f.stroke s isClosing).unlinked := by
  unfold Figure.stroke Stroke.unlinked
  rw [h.segment s hs.segment_lt]
  simp only [h.knot]

theorem leavingSegment {s i j : ℕ} (hs : f.Joins s i j) :
    f'.leavingSegment i = f.leavingSegment i := by
  rw [Figure.leavingSegment, Figure.leavingSegment, h.segmentOut hs.segmentOut, hs.segmentOut]

theorem innerStrokes (htraced : f.IsTraced c) :
    (f'.innerStrokes c).map Stroke.unlinked = (f.innerStrokes c).map Stroke.unlinked := by
  unfold Figure.innerStrokes
  rw [List.map_map, List.map_map]
  refine List.map_congr_left fun i hi => ?_
  obtain ⟨hfirst, hlast⟩ := List.mem_range'_1.mp hi
  have hs := htraced.path.joins_leavingSegment hfirst (by omega)
  rw [Function.comp, Function.comp, h.leavingSegment hs, h.stroke hs]

theorem closingStroke (hend : f.HasEnd c) (htraced : f.IsTraced c) (htraced' : f'.IsTraced c) :
    (f'.closingStroke c).map Stroke.unlinked = (f.closingStroke c).map Stroke.unlinked := by
  unfold Figure.closingStroke
  rcases htraced.ends with hloose | ⟨s, hs⟩
  · rw [hloose.segmentOut]
    rcases htraced'.ends with hloose' | ⟨s, hs⟩
    · rw [hloose'.segmentOut]
    · have hbare : f.IsBare c.first c.last := hend.isBare hloose
      have hline : (f'.segment s).isLine = true := by
        rw [hs.isLine, h.controlOut, h.controlIn, hbare.controlOut, hbare.controlIn]
        rfl
      rw [hs.segmentOut]
      dsimp only
      rw [hline, if_pos rfl]
  · rw [h.segmentOut hs.segmentOut, hs.segmentOut]
    dsimp only
    rw [h.segment s hs.segment_lt]
    split_ifs
    · rfl
    · rw [List.map_singleton, List.map_singleton, h.stroke hs]

theorem strokes (hf : f.IsNeat) (hf' : f'.IsNeat) (hc : c ∈ f.contours) :
    (f'.strokes c).map Stroke.unlinked = (f.strokes c).map Stroke.unlinked := by
  have htraced := hf.traced hc
  have htraced' := hf'.traced (h.contours ▸ hc)
  rw [htraced.strokes, htraced'.strokes, List.map_append, List.map_append, h.innerStrokes htraced,
    h.closingStroke (hf.ends c hc) htraced htraced']

theorem drawContour (hf : f.IsNeat) (hf' : f'.IsNeat) (hc : c ∈ f.contours) :
    f'.drawContour c = f.drawContour c := by
  have hcommands (f : Figure α) : (f.strokes c).map Stroke.command =
      ((f.strokes c).map Stroke.unlinked).map Stroke.command := by
    rw [List.map_map]
    exact List.map_congr_left fun s _ => (Stroke.command_unlinked s).symm
  rw [Figure.drawContour, Figure.drawContour, h.anchor, hcommands f', h.strokes hf hf' hc,
    ← hcommands f]

theorem hasCurves (order : CurveOrder) : f'.hasCurves order = f.hasCurves order := by
  refine Bool.eq_iff_iff.mpr ((hasCurves_iff f' order).trans
    (Iff.trans ?_ (hasCurves_iff f order).symm))
  constructor
  · rintro ⟨s, hs, hcurve, horder⟩
    have hlt : s < f.segments.size := by
      by_contra hge
      rw [h.isLine s hs (not_lt.mp hge)] at hcurve
      cases hcurve
    exact ⟨s, hlt, h.segment s hlt ▸ ⟨hcurve, horder⟩⟩
  · rintro ⟨s, hs, hcurve, horder⟩
    exact ⟨s, hs.trans_le h.segments_le, (h.segment s hs).symm ▸ ⟨hcurve, horder⟩⟩

theorem contourKnots (hf : f.IsNeat) (hf' : f'.IsNeat) (hc : c ∈ f.contours) :
    f'.contourKnots c = f.contourKnots c := by
  rw [(hf.traced hc).contourKnots, (hf'.traced (h.contours ▸ hc)).contourKnots]

theorem of_isClosed (hf : f.IsNeat) (hf' : f'.IsNeat) (hc : c ∈ f.contours)
    (hclosed : f.isClosed c = true) :
    f'.isClosed c = true ∧ f'.contourSegments c = f.contourSegments c ∧
      (∀ i ∈ f.contourKnots c, f'.knot i = f.knot i) ∧
      ∀ s ∈ f.contourSegments c, f'.segment s = f.segment s := by
  have htraced := hf.traced hc
  have htraced' := hf'.traced (h.contours ▸ hc)
  obtain ⟨s, hs⟩ := htraced.isClosed_iff.mp hclosed
  have hle := htraced.path.le
  have hknot (i : ℕ) (hi : i ∈ f.contourKnots c) :
      (∃ s j, f.Joins s i j) ∧ ∃ s j, f.Joins s j i := by
    rw [htraced.contourKnots] at hi
    obtain ⟨hfirst, hlast⟩ := List.mem_range'_1.mp hi
    constructor
    · by_cases hlt : i < c.last
      · exact ⟨_, _, htraced.path.joins_leavingSegment hfirst hlt⟩
      · obtain rfl : i = c.last := by omega
        exact ⟨s, c.first, hs⟩
    · by_cases hlt : c.first < i
      · have hbefore := htraced.path.joins_leavingSegment (i := i - 1) (by omega) (by omega)
        rw [Nat.sub_add_cancel (by omega)] at hbefore
        exact ⟨_, _, hbefore⟩
      · obtain rfl : i = c.first := by omega
        exact ⟨s, c.last, hs⟩
  refine ⟨h.isClosed htraced htraced' hclosed, ?_, fun i hi => ?_, fun s hs => ?_⟩
  · unfold Figure.contourSegments
    rw [h.contourKnots hf hf' hc]
    refine List.filterMap_congr fun i hi => ?_
    obtain ⟨s, j, hs⟩ := (hknot i hi).1
    rw [hs.segmentOut, h.segmentOut hs.segmentOut]
  · obtain ⟨⟨s, j, hs⟩, t, k, ht⟩ := hknot i hi
    exact Knot.eq_of_unlinked (h.knot i) ((h.segmentIn ht.segmentIn).trans ht.segmentIn.symm)
      ((h.segmentOut hs.segmentOut).trans hs.segmentOut.symm)
  · obtain ⟨i, hi, hout⟩ := List.mem_filterMap.mp hs
    obtain ⟨s', j, hs'⟩ := (hknot i hi).1
    obtain rfl := Option.some.inj (hout.symm.trans hs'.segmentOut)
    exact h.segment s hs'.segment_lt

end

end GainsLines

/-- Every contour of two knots or more has been closed. The knots of the contours are what they
were, and so are the contours that had been closed before. -/
structure ClosesTo (f f' : Figure α) : Prop where
  contours : f'.contours = f.contours
  isClosed : ∀ c ∈ f.contours, 2 ≤ (f.contourKnots c).length → f'.isClosed c = true
  contourKnots : ∀ c ∈ f.contours, f'.contourKnots c = f.contourKnots c
  size : f'.knots.size = f.knots.size
  anchor : ∀ i, (f'.knot i).anchor = (f.knot i).anchor
  of_isClosed : ∀ c ∈ f.contours, f.isClosed c = true →
    f'.isClosed c = true ∧ f'.contourSegments c = f.contourSegments c ∧
      (∀ i ∈ f.contourKnots c, f'.knot i = f.knot i) ∧
      ∀ s ∈ f.contourSegments c, f'.segment s = f.segment s

theorem IsNeat.closesTo (h : f.IsNeat) (order : CurveOrder) : f.ClosesTo (f.closeAll order) := by
  obtain ⟨hgains, hneat, hclosed⟩ := h.closeAll order
  refine ⟨hgains.contours, fun c hc hlength => hclosed c hc ?_,
    fun c hc => hgains.contourKnots h hneat hc, hgains.size, hgains.anchor,
    fun c hc => hgains.of_isClosed h hneat hc⟩
  rintro hsame
  rw [(h.traced hc).contourKnots, List.length_range', hsame] at hlength
  omega

theorem IsNeat.closeAll_closeAll (h : f.IsNeat) (order : CurveOrder) :
    (f.closeAll order).closeAll order = f.closeAll order := by
  obtain ⟨hgains, -, hclosed⟩ := h.closeAll order
  refine closeAll_eq_self fun c hc => hclosed c ?_
  rwa [hgains.contours] at hc

end Figure

namespace Glyph

variable {g : Glyph α}

theorem closeOpenContours_filled (g : Glyph α) :
    g.closeOpenContours .filled =
      { g with figures := g.figures.map (·.closeAll g.format.curveOrder) } := rfl

theorem closeOpenContours_closeOpenContours (h : ∀ f ∈ g.figures, f.IsNeat) :
    (g.closeOpenContours .filled).closeOpenContours .filled = g.closeOpenContours .filled := by
  have hfigures : (g.figures.map (·.closeAll g.format.curveOrder)).map
      (·.closeAll g.format.curveOrder) = g.figures.map (·.closeAll g.format.curveOrder) := by
    rw [List.map_map]
    exact List.map_congr_left fun f hf => (h f hf).closeAll_closeAll g.format.curveOrder
  rw [closeOpenContours_filled, closeOpenContours_filled]
  dsimp only
  rw [hfigures]

theorem draw_closeOpenContours (h : ∀ f ∈ g.figures, f.IsNeat) :
    (g.closeOpenContours .filled).draw = g.draw := by
  rw [closeOpenContours_filled, draw, draw, drawContours, drawContours, contours, contours,
    List.map_flatMap, List.map_flatMap, List.flatMap_map]
  congr 1
  refine List.flatMap_congr fun f hf => ?_
  obtain ⟨hgains, hneat, -⟩ := (h f hf).closeAll g.format.curveOrder
  rw [List.map_map, List.map_map, hgains.contours]
  exact List.map_congr_left fun c hc =>
    hgains.drawContour (h f hf) hneat (Array.mem_toList_iff.mp hc)

end Glyph

end Letterform
