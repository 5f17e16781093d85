import Letterform.Proofs.Charstring.Trace
import Letterform.Proofs.Outline.Loop
import Letterform.Proofs.Outline.Plotted
import Letterform.Proofs.Outline.Strokes

/-!
# Contours that are drawn are traced again

A contour that is drawn from a trace has the same trace, unless it comes back to its start by a line
or brings a mask there: the knot where it ends is joined with the first one, so the line closes the
contour and is left out, and the mask is that of the first knot.
-/

namespace Letterform

variable {α : Type} [Scalar α]

open Charstring (Leg Trace)

-- ---------------------------------------------------------------------------
-- Traces of contours
-- ---------------------------------------------------------------------------

def Knot.leg (k k' : Knot α) : Leg α where
  start := k.anchor
  controls :=
    if k.controlOut.isNone && k'.controlIn.isNone then none else some (k.leaving, k'.arriving)
  stop := k'.anchor
  mask := k'.mask

def Stroke.leg (s : Stroke α) : Leg α where
  start := s.start.anchor
  controls := if s.isLine then none else some (s.start.leaving, s.stop.arriving)
  stop := s.stop.anchor
  mask := if s.isClosing then none else s.stop.mask

namespace Figure

def trace (f : Figure α) (c : Contour) : Trace α where
  start := (f.knot c.first).anchor
  mask := (f.knot c.first).mask
  legs := (f.strokes c).map Stroke.leg

/-- The leg that leads back to the first knot of a contour, unless there is none or it is a line. -/
def returning (f : Figure α) (c : Contour) : List (Leg α) :=
  let back := { (f.knot c.last).leg (f.knot c.first) with mask := none }
  if (f.knot c.last).segmentOut.isSome && back.controls.isSome then [back] else []

theorem returning_eq {f : Figure α} {c : Contour} {l : Leg α}
    (hout : (f.knot c.last).segmentOut.isSome = true)
    (hback : { (f.knot c.last).leg (f.knot c.first) with mask := none } = l)
    (hcurve : l.controls.isSome = true) : f.returning c = [l] := by
  rw [← hback] at hcurve ⊢
  exact if_pos (by rw [hout, hcurve]; rfl)

/-- The legs between the knots of a contour in the order of the table. -/
def inner (f : Figure α) (c : Contour) : List (Leg α) :=
  (List.range' c.first (c.last - c.first)).map fun i => (f.knot i).leg (f.knot (i + 1))

variable {f f' : Figure α} {c : Contour}

theorem Joins.leg {s i j : ℕ} (h : f.Joins s i j) (isClosing : Bool) :
    (f.stroke s isClosing).leg =
      { (f.knot i).leg (f.knot j) with mask := if isClosing then none else (f.knot j).mask } := by
  simp only [Stroke.leg, stroke, Knot.leg, h.start, h.stop, h.isLine]

theorem map_innerStrokes (h : f.IsTraced c) : (f.innerStrokes c).map Stroke.leg = f.inner c := by
  rw [innerStrokes, List.map_map]
  refine List.map_congr_left fun i hi => ?_
  obtain ⟨hfirst, hlt⟩ := List.mem_range'_1.mp hi
  exact (h.path.joins_leavingSegment hfirst (by omega)).leg false

theorem map_closingStroke (h : f.IsTraced c) :
    (f.closingStroke c).map Stroke.leg = f.returning c := by
  rcases h.ends with hloose | ⟨s, hs⟩
  · simp [closingStroke, returning, hloose.segmentOut]
  · have hback := hs.leg true
    have hline : (f.segment s).isLine =
        ((f.knot c.last).leg (f.knot c.first)).controls.isNone := by
      rw [hs.isLine, Knot.leg]
      split_ifs with hnone <;> simp [hnone]
    rw [closingStroke, returning, hs.segmentOut]
    dsimp only
    rw [hline]
    cases hcontrols : ((f.knot c.last).leg (f.knot c.first)).controls <;> simp [hcontrols, hback]

theorem IsTraced.legs (h : f.IsTraced c) : (f.trace c).legs = f.inner c ++ f.returning c := by
  rw [trace, h.strokes, List.map_append, map_innerStrokes h, map_closingStroke h]

theorem IsTraced.trace_eq {t : Trace α} (h : f.IsTraced c) (hstart : (f.knot c.first).anchor = t.start)
    (hmask : (f.knot c.first).mask = t.mask) (hlegs : f.inner c ++ f.returning c = t.legs) :
    f.trace c = t := by
  obtain ⟨start, mask, legs⟩ := t
  rw [← h.legs] at hlegs
  subst hstart hmask hlegs
  rfl

theorem IsTraced.trace_congr (h : f.IsTraced c) (h' : f'.IsTraced c)
    (hknot : ∀ i, c.first ≤ i → i ≤ c.last → f'.knot i = f.knot i) : f'.trace c = f.trace c := by
  have hle := h.path.le
  have hfirst := hknot c.first le_rfl hle
  have hlast := hknot c.last hle le_rfl
  have hinner : f'.inner c = f.inner c := by
    refine List.map_congr_left fun i hi => ?_
    obtain ⟨hfirst, hlt⟩ := List.mem_range'_1.mp hi
    rw [hknot i hfirst (by omega), hknot (i + 1) (by omega) (by omega)]
  refine h'.trace_eq (by rw [hfirst]; rfl) (by rw [hfirst]; rfl) ?_
  rw [h.legs, hinner, returning, returning, hfirst, hlast]

theorem IsTraced.trace_addContour (h : f.IsTraced c) (c' : Contour) :
    (f.addContour c').trace c = f.trace c :=
  h.trace_congr (h.keeps h.path.lt ⟨fun _ _ hs => hs.addContour c', fun _ _ => rfl, fun _ _ => rfl⟩
    le_rfl) fun _ _ _ => rfl

end Figure

-- ---------------------------------------------------------------------------
-- Legs that are drawn
-- ---------------------------------------------------------------------------

namespace Charstring

namespace Leg

/-- The control point that a knot gets when the leg leaves it. -/
def departing (l : Leg α) : Option (Point α) :=
  l.controls.bind fun c => if c.1 == l.start then none else some c.1

def arriving (l : Leg α) : Option (Point α) :=
  l.controls.bind fun c => if c.2 == l.stop then none else some c.2

/-- A leg that is the same when it has been drawn: not both of its control points are dropped, and
one that is dropped is the very end of the leg. -/
def IsDrawable (l : Leg α) : Prop := ∀ c ∈ l.controls,
  ((c.1 == l.start) = true → c.1 = l.start) ∧ ((c.2 == l.stop) = true → c.2 = l.stop) ∧
    (c.1 == l.start && c.2 == l.stop) = false

theorem IsDrawable.leg_eq {l : Leg α} (h : l.IsDrawable) {k k' : Knot α}
    (hstart : k.anchor = l.start) (hstop : k'.anchor = l.stop) (hout : k.controlOut = l.departing)
    (hin : k'.controlIn = l.arriving) (hmask : k'.mask = l.mask) : k.leg k' = l := by
  obtain ⟨start, controls, stop, mask⟩ := l
  simp only [Knot.leg, Knot.leaving, Knot.arriving, hstart, hstop, hout, hin, hmask]
  cases controls with
  | none => rfl
  | some c =>
    obtain ⟨hfirst, hsecond, hcurve⟩ := h c rfl
    dsimp only at hfirst hsecond hcurve
    simp only [departing, arriving, Option.bind_some]
    cases hc1 : c.1 == start <;> cases hc2 : c.2 == stop
    · simp
    · simp [← hsecond hc2]
    · simp [← hfirst hc1]
    · rw [hc1, hc2] at hcurve
      cases hcurve

end Leg

def Drawable (start : Point α) : List (Leg α) → Prop
  | [] => True
  | l :: legs => l.start = start ∧ l.IsDrawable ∧ Drawable l.stop legs

theorem drawable_append {start : Point α} {legs legs' : List (Leg α)} :
    Drawable start (legs ++ legs') ↔ Drawable start legs ∧ Drawable (endOf start legs) legs' := by
  induction legs generalizing start with
  | nil => exact (and_iff_right trivial).symm
  | cons l legs ih =>
    rw [List.cons_append, Drawable, Drawable, ih, and_assoc, and_assoc]
    rfl

namespace Trace

/-- A trace that a contour has when it is drawn: if the contour comes back to its start then by a
curve that brings no mask. -/
structure IsDrawable (t : Trace α) : Prop where
  legs : Drawable t.start t.legs
  closing : t.start.isClose t.stop = true →
    t.stop = t.start ∧ ∀ l ∈ t.legs.getLast?, l.controls.isSome = true ∧ l.mask = none

def conveyed (masks : HintMask → Option HintMask) (t : Trace α) : Trace α where
  start := t.start
  mask := t.mask.bind masks
  legs := t.legs.map fun l => { l with mask := l.mask.bind masks }

omit [Scalar α] in
theorem stop_append (t : Trace α) (l : Leg α) :
    ({ t with legs := t.legs ++ [l] } : Trace α).stop = l.stop := by
  simp [stop]

theorem draw_conveyed (masks : HintMask → Option HintMask) (b : Builder α) (t : Trace α) :
    (t.conveyed masks).draw some b = t.draw masks b := by
  have hmask (mask : Option HintMask) : mask.bind some = mask := Option.bind_fun_some mask
  unfold draw conveyed
  rw [List.foldl_map, hmask]
  refine List.foldl_ext _ _ _ fun b l _ => ?_
  simp only [Leg.draw, hmask]

end Trace

end Charstring

-- ---------------------------------------------------------------------------
-- Contours that are drawn
-- ---------------------------------------------------------------------------

namespace Builder

variable {b b' : Builder α} {f : Figure α} {l : Leg α} {t : Trace α} {first last : ℕ}

structure LegDrawn (b : Builder α) (first last : ℕ) (l : Leg α) (b' : Builder α) : Prop where
  path : b'.path = some (first, last + 1)
  contours : b'.figure.contours = b.figure.contours
  size : b'.figure.knots.size = b.figure.knots.size + 1
  knot : ∀ i, b'.figure.knot i =
    if i = last + 1 then
      { anchor := l.stop
        controlIn := l.arriving
        mask := l.mask
        segmentIn := some b.figure.segments.size }
    else if i = last then
      { b.figure.knot last with
        controlOut := l.departing
        segmentOut := some b.figure.segments.size }
    else b.figure.knot i

theorem leg_drawn (hpath : b.path = some (first, last)) (hlast : last + 1 = b.figure.knots.size)
    (hcontrol : (b.figure.knot last).controlOut = none)
    (hanchor : (b.figure.knot last).anchor = l.start) :
    b.LegDrawn first last l (l.draw some b) := by
  obtain ⟨f, order, path⟩ := b
  dsimp only at hpath hlast hcontrol hanchor
  subst hpath
  obtain ⟨start, controls, stop, mask⟩ := l
  have hmark (k : Knot α) (hk : k.mask = none) :
      { k with mask := (mask.bind some).or k.mask } = { k with mask } := by
    rw [hk, Option.bind_fun_some, Option.or_none]
  cases controls with
  | none =>
    have hdraw : Leg.draw some ⟨f, order, some (first, last)⟩ ⟨start, none, stop, mask⟩ =
        ⟨((f.addKnot { anchor := stop }).connect last f.knots.size order).modifyKnot f.knots.size
            fun k => { k with mask := (mask.bind some).or k.mask },
          order, some (first, f.knots.size)⟩ := rfl
    rw [hdraw]
    refine ⟨by rw [hlast], rfl, by simp, fun i => ?_⟩
    have hnone : (⟨start, none, stop, mask⟩ : Leg α).departing = (f.knot last).controlOut :=
      hcontrol.symm
    rw [Figure.knot_extended _ _ _ _ hlast, hmark _ rfl, hnone]
    rfl
  | some c =>
    let g := f.modifyKnot last fun k =>
      { k with controlOut := if c.1 == k.anchor then none else some c.1 }
    have hsize : g.knots.size = f.knots.size := Figure.size_modifyKnot _ _ _
    have hdraw : Leg.draw some ⟨f, order, some (first, last)⟩ ⟨start, some c, stop, mask⟩ =
        ⟨((g.addKnot { anchor := stop, controlIn := if c.2 == stop then none else some c.2 }).connect
            last g.knots.size .cubic).modifyKnot g.knots.size
              fun k => { k with mask := (mask.bind some).or k.mask },
          order, some (first, g.knots.size)⟩ := rfl
    have hknot (i : ℕ) : g.knot i = if i = last then
        { f.knot last with
          controlOut := if c.1 == (f.knot last).anchor then none else some c.1 }
        else f.knot i :=
      Figure.knot_modifyKnot_of_lt f (by omega) _ i
    have hdeparting : (⟨start, some c, stop, mask⟩ : Leg α).departing =
        if c.1 == (f.knot last).anchor then none else some c.1 := by
      rw [hanchor]
      rfl
    rw [hdraw]
    refine ⟨by rw [hsize, hlast], rfl, by simp [hsize], fun i => ?_⟩
    rw [Figure.knot_extended _ _ _ _ (hlast.trans hsize.symm), hmark _ rfl, hknot, hknot, if_pos rfl,
      hdeparting]
    refine ite_congr rfl (fun _ => rfl) fun hnew => ite_congr rfl (fun _ => rfl) fun hold => ?_
    rw [if_neg hold]

/-- A contour that is being drawn after a figure, with its trace up to the newest knot. -/
structure IsTracing (f : Figure α) (t : Trace α) (b : Builder α) : Prop where
  path : b.path = some (f.knots.size, f.knots.size + t.legs.length)
  contours : b.figure.contours = f.contours
  size : b.figure.knots.size = f.knots.size + t.legs.length + 1
  kept : ∀ i < f.knots.size, b.figure.knot i = f.knot i
  start : (b.figure.knot f.knots.size).anchor = t.start
  mask : (b.figure.knot f.knots.size).mask = t.mask
  legs : ∀ i (hi : i < t.legs.length), (b.figure.knot (f.knots.size + i)).leg
    (b.figure.knot (f.knots.size + i + 1)) = t.legs[i]
  stop : (b.figure.knot (f.knots.size + t.legs.length)).anchor = t.stop
  control : (b.figure.knot (f.knots.size + t.legs.length)).controlOut = none

theorem isTracing_moveTo (b : Builder α) (p : Point α) (mask : Option HintMask) :
    IsTracing (b.endContour false).figure ⟨p, mask, []⟩ ((b.moveTo p).mark mask) := by
  have hmove : (b.moveTo p).mark mask =
      { b.endContour false with
        figure := ((b.endContour false).figure.addKnot { anchor := p }).modifyKnot
          (b.endContour false).figure.knots.size fun k => { k with mask := mask.or k.mask }
        path := some ((b.endContour false).figure.knots.size,
          (b.endContour false).figure.knots.size) } := rfl
  rw [hmove]
  generalize (b.endContour false).figure = f
  have hknot (i : ℕ) : ((f.addKnot { anchor := p }).modifyKnot f.knots.size
      fun k => { k with mask := mask.or k.mask }).knot i =
        if i = f.knots.size then { anchor := p, mask } else f.knot i := by
    rw [Figure.knot_modifyKnot_addKnot, Option.or_none]
  have hlast := hknot f.knots.size
  rw [if_pos rfl] at hlast
  refine ⟨rfl, rfl, by simp, fun i hi => ?_, ?_, ?_, nofun, ?_, ?_⟩
  · rw [hknot, if_neg hi.ne]
  all_goals
    dsimp only [List.length_nil, Nat.add_zero]
    rw [hlast]
  rfl

theorem IsTracing.draw (h : IsTracing f t b) (hstart : l.start = t.stop) (hl : l.IsDrawable) :
    IsTracing f { t with legs := t.legs ++ [l] } (l.draw some b) := by
  have hsize := h.size
  obtain ⟨hpath, hcontours, hknots, hknot⟩ :=
    leg_drawn h.path hsize.symm h.control (h.stop.trans hstart.symm)
  have hlength : (t.legs ++ [l]).length = t.legs.length + 1 := by simp
  have hnewest := hknot (f.knots.size + t.legs.length + 1)
  have hleft := hknot (f.knots.size + t.legs.length)
  rw [if_pos rfl] at hnewest
  rw [if_neg (by omega), if_pos rfl] at hleft
  have hbefore (i : ℕ) (hi : i < f.knots.size + t.legs.length) :
      (l.draw some b).figure.knot i = b.figure.knot i := by
    rw [hknot, if_neg (by omega), if_neg (by omega)]
  have hentered (i : ℕ) (hi : i ≤ f.knots.size + t.legs.length) :
      ∃ controlOut segmentOut, (l.draw some b).figure.knot i =
        { b.figure.knot i with controlOut, segmentOut } := by
    rcases hi.lt_or_eq with hlt | rfl
    · exact ⟨_, _, hbefore i hlt⟩
    · exact ⟨_, _, hleft⟩
  refine ⟨?_, hcontours.trans h.contours, ?_, fun i hi => ?_, ?_, ?_, fun i hi => ?_, ?_, ?_⟩
  · rw [hpath, hlength, Nat.add_assoc]
  · rw [hknots, hsize, hlength]
    omega
  · rw [hbefore i (by omega), h.kept i hi]
  · obtain ⟨_, _, hk⟩ := hentered f.knots.size (by omega)
    rw [hk]
    exact h.start
  · obtain ⟨_, _, hk⟩ := hentered f.knots.size (by omega)
    rw [hk]
    exact h.mask
  · rw [hlength] at hi
    by_cases hlt : i < t.legs.length
    · obtain ⟨_, _, hk⟩ := hentered (f.knots.size + i + 1) (by omega)
      rw [List.getElem_append_left hlt, ← h.legs i hlt, hbefore (f.knots.size + i) (by omega), hk]
      rfl
    · obtain rfl : i = t.legs.length := by omega
      rw [List.getElem_concat_length rfl, hleft, hnewest]
      exact hl.leg_eq (h.stop.trans hstart.symm) rfl rfl rfl rfl
  · rw [Trace.stop_append, hlength, ← Nat.add_assoc, hnewest]
  · rw [hlength, ← Nat.add_assoc, hnewest]

theorem IsTracing.foldl_draw (h : IsTracing f t b) {legs : List (Leg α)}
    (hlegs : Charstring.Drawable t.stop legs) :
    IsTracing f { t with legs := t.legs ++ legs } (legs.foldl (Leg.draw some) b) := by
  induction legs generalizing t b with
  | nil => rwa [List.append_nil]
  | cons l legs ih =>
    obtain ⟨hstart, hl, hrest⟩ := hlegs
    have hdrawn := h.draw hstart hl
    rw [← t.stop_append l] at hrest
    have hall := ih hdrawn hrest
    rwa [List.append_assoc] at hall

theorem IsTracing.trace_open (h : IsTracing f t b) (hsound : b.IsSound) :
    (b.figure.addContour ⟨f.knots.size, f.knots.size + t.legs.length⟩).trace
      ⟨f.knots.size, f.knots.size + t.legs.length⟩ = t := by
  have hdrawing := (isSound_of_some h.path).mp hsound
  have htraced : b.figure.IsTraced ⟨f.knots.size, f.knots.size + t.legs.length⟩ :=
    ⟨hdrawing.path, .inl hdrawing.loose⟩
  refine (htraced.trace_addContour _).trans (htraced.trace_eq h.start h.mask ?_)
  have hinner : b.figure.inner ⟨f.knots.size, f.knots.size + t.legs.length⟩ = t.legs := by
    refine List.ext_getElem (by simp [Figure.inner]) fun i _ hi => ?_
    simpa [Figure.inner] using h.legs i hi
  have hreturning : b.figure.returning ⟨f.knots.size, f.knots.size + t.legs.length⟩ = [] := by
    simp [Figure.returning, hdrawing.loose.segmentOut]
  rw [hinner, hreturning, List.append_nil]

/-- A contour of which the ends are joined has the legs that have been drawn, the last one of them
leading back to its start. -/
theorem IsTracing.trace_joinLast {legs : List (Leg α)} (h : IsTracing f t b)
    (hlegs : t.legs = legs ++ [l]) (hstop : t.stop = t.start) (hcurve : l.controls.isSome = true)
    (hmask : l.mask = none) {segment : ℕ} {g : Figure α} (hg : ∀ i, g.knot i = (joinLast b.figure
      f.knots.size (b.figure.knot (f.knots.size + t.legs.length)) segment).knot i)
    (htraced : g.IsTraced ⟨f.knots.size, f.knots.size + legs.length⟩) :
    g.trace ⟨f.knots.size, f.knots.size + legs.length⟩ = t := by
  have hsize := h.size
  have hlength : t.legs.length = legs.length + 1 := by rw [hlegs]; simp
  have hlast : (b.figure.knot (f.knots.size + legs.length)).leg
      (b.figure.knot (f.knots.size + t.legs.length)) = l := by
    have hleg := h.legs legs.length (by omega)
    rwa [List.getElem_of_append hlegs rfl, Nat.add_assoc, ← hlength] at hleg
  generalize hremoved : b.figure.knot (f.knots.size + t.legs.length) = removed at hg hlast ⊢
  have hnone : removed.mask = none := (congrArg Leg.mask hlast).trans hmask
  have hanchor : removed.anchor = (b.figure.knot f.knots.size).anchor := by
    rw [h.start, ← hstop, ← h.stop, hremoved]
  have hknot (i : ℕ) (hi : i ≤ f.knots.size + legs.length) := (hg i).trans
    (knot_joinLast b.figure f.knots.size removed segment i (by omega) (by omega))
  have hfirst := hknot f.knots.size (by omega)
  rw [if_pos rfl] at hfirst
  have hleaving (i : ℕ) (hi : i ≤ f.knots.size + legs.length) :
      ∃ segmentIn controlIn mask, g.knot i =
        { b.figure.knot i with segmentIn, controlIn, mask } := by
    rw [hg]
    exact knot_joinLast_leaving b.figure f.knots.size removed segment i (by omega) (by omega)
  have hinner : g.inner ⟨f.knots.size, f.knots.size + legs.length⟩ = legs := by
    refine List.ext_getElem (by simp [Figure.inner]) fun i _ hi => ?_
    obtain ⟨_, _, _, hk⟩ := hleaving (f.knots.size + i) (by omega)
    have hk' := hknot (f.knots.size + i + 1) (by omega)
    rw [if_neg (by omega)] at hk'
    have hleg := h.legs i (by omega)
    rw [List.getElem_of_eq hlegs, List.getElem_append_left hi] at hleg
    simp only [Figure.inner, List.getElem_map, List.getElem_range', one_mul]
    rw [hk, hk']
    exact hleg
  have hreturning : g.returning ⟨f.knots.size, f.knots.size + legs.length⟩ = [l] := by
    have hout : (g.knot (f.knots.size + legs.length)).segmentOut.isSome = true := by
      rcases htraced.ends with hloose | ⟨s, hs⟩
      · have hin := hloose.segmentIn
        rw [hfirst] at hin
        cases hin
      · rw [hs.segmentOut]
        rfl
    obtain ⟨_, _, _, hk⟩ := hleaving (f.knots.size + legs.length) le_rfl
    have hback : { (g.knot (f.knots.size + legs.length)).leg (g.knot f.knots.size) with
        mask := none } = l := by
      rw [← hlast, hk, hfirst]
      simp [Knot.leg, Knot.arriving, Knot.leaving, hanchor, hnone]
    exact Figure.returning_eq hout hback hcurve
  refine htraced.trace_eq ?_ ?_ (by rw [hinner, hreturning, hlegs])
  · rw [hfirst]
    exact h.start
  · rw [hfirst, hnone, Option.or_none]
    exact h.mask

theorem IsTracing.endContour (h : IsTracing f t b) (hsound : b.IsSound) (ht : t.IsDrawable) :
    ∃ c, (b.endContour false).figure.contours = f.contours.push c ∧
      (b.endContour false).figure.trace c = t ∧
      ∀ i < f.knots.size, (b.endContour false).figure.knot i = f.knot i := by
  have hdrawing := (isSound_of_some h.path).mp hsound
  have hsize := h.size
  have hleft : ∃ c, (b.figure.addContour ⟨f.knots.size, f.knots.size + t.legs.length⟩).contours =
        f.contours.push c ∧
      (b.figure.addContour ⟨f.knots.size, f.knots.size + t.legs.length⟩).trace c = t ∧
      ∀ i < f.knots.size,
        (b.figure.addContour ⟨f.knots.size, f.knots.size + t.legs.length⟩).knot i = f.knot i :=
    ⟨_, by rw [Figure.addContour, h.contours], h.trace_open hsound, h.kept⟩
  rw [Builder.endContour, h.path]
  dsimp only
  split_ifs with hsame hcoincides hclose
  · exact hleft
  · rw [h.start, h.stop, Bool.and_eq_true] at hcoincides
    obtain ⟨hstop, hclosing⟩ := ht.closing hcoincides.1
    obtain ⟨segment, hsegment, htiled⟩ := hdrawing.join hsame
    rcases List.eq_nil_or_concat' t.legs with hnil | ⟨legs, l, hlegs⟩
    · rw [hnil] at hsame
      exact absurd rfl hsame
    obtain ⟨hcurve, hmask⟩ := hclosing l (by rw [hlegs]; simp)
    have hlength : t.legs.length = legs.length + 1 := by rw [hlegs]; simp
    obtain ⟨s, hs⟩ := hdrawing.path.joins (f.knots.size + legs.length) (by omega) (by omega)
    rw [Nat.add_assoc, ← hlength] at hs
    obtain rfl : segment = s := Option.some.inj (hsegment.symm.trans hs.segmentIn)
    rw [hs.start] at htiled
    rw [hsegment]
    dsimp only
    rw [hs.start]
    have htraced := htiled.traced ⟨f.knots.size, f.knots.size + legs.length⟩
      (by simp [Figure.addContour])
    refine ⟨⟨f.knots.size, f.knots.size + legs.length⟩, ?_, ?_, fun i hi => ?_⟩
    · rw [Figure.addContour, joinLast, Figure.contours_modifyKnot, h.contours]
    · exact h.trace_joinLast hlegs hstop hcurve hmask (fun _ => rfl) htraced
    · have hknot := knot_joinLast b.figure f.knots.size
        (b.figure.knot (f.knots.size + t.legs.length)) segment i (by omega) (by omega)
      rw [if_neg hi.ne, h.kept i hi] at hknot
      exact hknot
  · contradiction
  · exact hleft

-- ---------------------------------------------------------------------------
-- Figures that are drawn
-- ---------------------------------------------------------------------------

/-- A builder that has drawn contours with these traces, the last of which may go on. -/
structure HasTraces (b : Builder α) (ts : List (Trace α)) : Prop where
  sound : b.IsSound
  traces : (b.endContour false).figure.contours.toList.map (b.endContour false).figure.trace = ts

theorem hasTraces_empty : ({} : Builder α).HasTraces [] := ⟨isSound_empty .cubic, rfl⟩

theorem IsSound.mark (h : b.IsSound) (mask : Option HintMask) : (b.mark mask).IsSound :=
  h.modifyCurrent (fun _ => ⟨rfl, rfl⟩) fun _ => rfl

theorem IsSound.drawLeg (h : b.IsSound) (l : Leg α) : (l.draw some b).IsSound := by
  unfold Leg.draw
  refine IsSound.mark ?_ _
  split
  · exact h.obey (.lineTo _)
  · exact h.obey (.curveTo _ _ _)

theorem IsSound.drawTrace (h : b.IsSound) (t : Trace α) : (t.draw some b).IsSound := by
  have hlegs (legs : List (Leg α)) {b : Builder α} (h : b.IsSound) :
      (legs.foldl (Leg.draw some) b).IsSound := by
    induction legs generalizing b with
    | nil => exact h
    | cons l legs ih => exact ih (h.drawLeg l)
  exact hlegs t.legs ((h.moveTo t.start).mark _)

theorem HasTraces.draw {ts : List (Trace α)} (h : b.HasTraces ts) (ht : t.IsDrawable) :
    (t.draw some b).HasTraces (ts ++ [t]) := by
  have htracing : IsTracing (b.endContour false).figure t (t.draw some b) := by
    unfold Trace.draw
    rw [Option.bind_fun_some]
    exact (isTracing_moveTo b t.start t.mask).foldl_draw ht.legs
  have hsound := h.sound.drawTrace t
  obtain ⟨c, hcontours, htrace, hkept⟩ := htracing.endContour hsound ht
  have hbefore := (isSound_of_none (path_endContour false)).mp (h.sound.endContour false)
  have hafter := (isSound_of_none (path_endContour false)).mp (hsound.endContour false)
  refine ⟨hsound, ?_⟩
  rw [hcontours, Array.toList_push, List.map_append, List.map_singleton, htrace, ← h.traces]
  congr 1
  refine List.map_congr_left fun d hd => ?_
  have hlast := hbefore.tiles.lt.2 d hd
  refine (hbefore.traced d hd).trace_congr (hafter.traced d ?_) fun i _ hi => hkept i (by omega)
  rw [hcontours, Array.toList_push]
  exact List.mem_append_left _ hd

theorem HasTraces.foldl_draw {ts ts' : List (Trace α)} (h : b.HasTraces ts)
    (hts : ∀ t ∈ ts', t.IsDrawable) : (ts'.foldl (Trace.draw some) b).HasTraces (ts ++ ts') := by
  induction ts' generalizing ts b with
  | nil => rwa [List.append_nil]
  | cons t ts' ih =>
    obtain ⟨ht, hts⟩ := List.forall_mem_cons.mp hts
    have hall := ih (h.draw ht) hts
    rwa [List.append_assoc] at hall

theorem traces_finish {ts : List (Trace α)} (hts : ∀ t ∈ ts, t.IsDrawable) :
    let f := (ts.foldl (Trace.draw some) ({} : Builder α)).finish
    f.IsTiled f.knots.size ∧ f.contours.toList.map f.trace = ts := by
  have hall := hasTraces_empty.foldl_draw hts
  exact ⟨(isSound_of_none (path_endContour false)).mp (hall.sound.endContour false), hall.traces⟩

end Builder

end Letterform
