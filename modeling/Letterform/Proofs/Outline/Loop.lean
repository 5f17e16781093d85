import Letterform.Outline.Numbering
import Letterform.Proofs.Outline.Figure

/-!
# Closed contours of lines and quadratic curves

A contour that ends where it started becomes a loop: its knots and segments follow one another in
the tables, and the last segment leads back to the first knot. Its points are those it was drawn
with, however much is drawn after it.
-/

namespace Letterform

variable {α : Type} [Scalar α]

-- ---------------------------------------------------------------------------
-- One segment
-- ---------------------------------------------------------------------------

/-- Draws a line, or a curve with a control point, to a point. -/
def Builder.arc (b : Builder α) (control : Option (OutlinePoint α)) (stop : OutlinePoint α) :
    Builder α :=
  let b := match control with
    | none => b.lineTo stop.position
    | some c =>
      (b.modifyCurrent ({ · with controlNumber := c.number })).quadTo c.position stop.position
  b.modifyCurrent ({ · with number := stop.number })

namespace Knot

def departed (k : Knot α) (control : Option (OutlinePoint α)) (segment : ℕ) : Knot α :=
  match control with
  | none => { k with segmentOut := some segment }
  | some c =>
    { k with
      controlNumber := c.number
      controlOut := some c.position
      segmentOut := some segment }

def arrived (stop : OutlinePoint α) (control : Option (OutlinePoint α)) (segment : ℕ) : Knot α where
  anchor := stop.position
  controlIn := control.map (·.position)
  number := stop.number
  segmentIn := some segment

end Knot

namespace Figure

theorem knot_extended (f : Figure α) (k : Knot α) (order : CurveOrder) (change : Knot α → Knot α)
    {last : ℕ} (hlast : last + 1 = f.knots.size) (i : ℕ) :
    (((f.addKnot k).connect last f.knots.size order).modifyKnot f.knots.size change).knot i =
      if i = last + 1 then change { k with segmentIn := some f.segments.size }
      else if i = last then { f.knot last with segmentOut := some f.segments.size }
      else f.knot i := by
  have hconnect := knot_connect (f.addKnot k) last f.knots.size order (by omega)
    (by rw [size_addKnot]; omega) (by rw [size_addKnot]; omega)
  rw [knot_modifyKnot, size_connect, size_addKnot, hconnect, hlast]
  by_cases hi : i = f.knots.size
  · subst hi
    simp [knot_addKnot]
  · have hi' : ¬ f.knots.size = i := fun h => hi h.symm
    have hne : last ≠ f.knots.size := by omega
    simp [knot_addKnot, hi, hi', hne]

theorem segments_extended (f : Figure α) (k : Knot α) (order : CurveOrder)
    (change : Knot α → Knot α) {last : ℕ} (hlast : last + 1 = f.knots.size) :
    (((f.addKnot k).connect last f.knots.size order).modifyKnot f.knots.size change).segments =
      f.segments.push
        { start := last, stop := last + 1, order
          isLine := (f.knot last).controlOut.isNone && k.controlIn.isNone } := by
  rw [segments_modifyKnot, segments_connect, segments_addKnot, knot_addKnot, knot_addKnot,
    if_neg (by omega), if_pos rfl, hlast]

end Figure

namespace Builder

variable {b : Builder α} {first last : ℕ} (control : Option (OutlinePoint α))
  (stop : OutlinePoint α)

/-- What a segment adds to a figure: the knot it arrives at, and itself. -/
structure ArcDrawn (b : Builder α) (first last : ℕ) (control : Option (OutlinePoint α))
    (stop : OutlinePoint α) (b' : Builder α) : Prop where
  path : b'.path = some (first, last + 1)
  order : b'.order = .quadratic
  contours : b'.figure.contours = b.figure.contours
  size : b'.figure.knots.size = b.figure.knots.size + 1
  segments : b'.figure.segments = b.figure.segments.push
    { start := last, stop := last + 1, order := .quadratic, isLine := control.isNone }
  knot : ∀ i, b'.figure.knot i =
    if i = last + 1 then .arrived stop control b.figure.segments.size
    else if i = last then (b.figure.knot last).departed control b.figure.segments.size
    else b.figure.knot i

theorem arc_drawn (hpath : b.path = some (first, last)) (horder : b.order = .quadratic)
    (hlast : last + 1 = b.figure.knots.size) (hcontrol : (b.figure.knot last).controlOut = none) :
    b.ArcDrawn first last control stop (b.arc control stop) := by
  cases control with
  | none =>
    have hdraw : b.arc none stop =
        { b with
          figure := ((b.figure.addKnot { anchor := stop.position }).connect last
            b.figure.knots.size .quadratic).modifyKnot b.figure.knots.size
              ({ · with number := stop.number })
          path := some (first, b.figure.knots.size) } := by
      rw [arc, lineTo, start_eq hpath, extend_eq hpath, horder, modifyCurrent_eq rfl]
      rfl
    rw [hdraw]
    refine ⟨?_, horder, rfl, by simp, ?_, fun i => ?_⟩
    · rw [hlast]
    · rw [Figure.segments_extended _ _ _ _ hlast, hcontrol]
      rfl
    · rw [Figure.knot_extended _ _ _ _ hlast]
      rfl
  | some c =>
    obtain ⟨f, order, path⟩ := b
    dsimp only at hpath horder hlast hcontrol
    subst hpath horder
    let g := (f.modifyKnot last ({ · with controlNumber := c.number })).modifyKnot last
      ({ · with controlOut := some c.position })
    have hsize : g.knots.size = f.knots.size := by simp [g]
    have hknot (i : ℕ) : g.knot i = if i = last then
        { f.knot last with controlNumber := c.number, controlOut := some c.position }
        else f.knot i := by
      have hlt : last < f.knots.size := by omega
      have hnumber := Figure.knot_modifyKnot_of_lt f hlt ({ · with controlNumber := c.number })
      rw [Figure.knot_modifyKnot_of_lt _ (by simpa using hlt), hnumber, hnumber, if_pos rfl]
      exact ite_congr rfl (fun _ => rfl) fun hi => if_neg hi
    have hcurve : (modifyCurrent ⟨f, .quadratic, some (first, last)⟩
        ({ · with controlNumber := c.number })).quadTo c.position stop.position =
        ⟨(g.addKnot { anchor := stop.position, controlIn := some c.position }).connect last
          g.knots.size .quadratic, .quadratic, some (first, g.knots.size)⟩ := by
      rw [quadTo]
      exact extend_eq (b := ⟨g, .quadratic, some (first, last)⟩) rfl _ _
    have hdraw : arc ⟨f, .quadratic, some (first, last)⟩ (some c) stop =
        ⟨((g.addKnot { anchor := stop.position, controlIn := some c.position }).connect last
            g.knots.size .quadratic).modifyKnot g.knots.size ({ · with number := stop.number }),
          .quadratic, some (first, g.knots.size)⟩ := by
      rw [arc, hcurve]
      rfl
    rw [hdraw]
    refine ⟨?_, rfl, by simp [g], by simp [hsize], ?_, fun i => ?_⟩
    · rw [hsize, hlast]
    · rw [Figure.segments_extended _ _ _ _ (by omega), hknot, if_pos rfl]
      rfl
    · rw [Figure.knot_extended _ _ _ _ (by omega), hknot, hknot, if_pos rfl]
      split_ifs <;> rfl

end Builder

-- ---------------------------------------------------------------------------
-- Many segments
-- ---------------------------------------------------------------------------

/-- A knot of a contour with the control point on the way to the next one. -/
structure Row (α : Type) where
  knot : OutlinePoint α
  control : Option (OutlinePoint α)

def Row.points (r : Row α) : List (OutlinePoint α) :=
  { r.knot with onCurve := true } :: (r.control.map ({ · with onCurve := false })).toList

namespace Figure

/-- A segment leads from a knot along a row to another knot. -/
structure Leads (f : Figure α) (r : Row α) (i s j : ℕ) : Prop where
  anchor : (f.knot i).anchor = r.knot.position
  number : (f.knot i).number = r.knot.number
  control : (f.knot i).controlOut = r.control.map (·.position)
  controlNumber : ∀ c ∈ r.control, (f.knot i).controlNumber = c.number
  segmentOut : (f.knot i).segmentOut = some s
  stop : (f.segment s).stop = j
  order : (f.segment s).order = .quadratic
  isLine : (f.segment s).isLine = r.control.isNone

theorem Leads.pointsFrom {f : Figure α} {r : Row α} {i s j : ℕ} (h : f.Leads r i s j) :
    f.pointsFrom i = r.points := by
  obtain ⟨hanchor, hnumber, hcontrol, hcontrolNumber, hout, -, horder, hline⟩ := h
  unfold Figure.pointsFrom Row.points
  cases hr : r.control with
  | none =>
    rw [hr] at hline
    simp [hout, hline, hanchor, hnumber]
  | some c =>
    rw [hr] at hline hcontrol hcontrolNumber
    have hc := hcontrolNumber c rfl
    simp [hout, hline, horder, hanchor, hnumber, Knot.leaving, hcontrol, hc]

/-- A figure that has grown: what was there is still in its place. -/
structure Extends (f f' : Figure α) : Prop where
  knots_le : f.knots.size ≤ f'.knots.size
  segments_le : f.segments.size ≤ f'.segments.size
  knot : ∀ i < f.knots.size, f'.knot i = f.knot i
  segment : ∀ s < f.segments.size, f'.segment s = f.segment s

theorem Extends.refl (f : Figure α) : f.Extends f := ⟨le_rfl, le_rfl, fun _ _ => rfl, fun _ _ => rfl⟩

theorem Extends.trans {f f' f'' : Figure α} (h : f.Extends f') (h' : f'.Extends f'') :
    f.Extends f'' := by
  refine ⟨h.knots_le.trans h'.knots_le, h.segments_le.trans h'.segments_le, ?_, ?_⟩
  · intro i hi
    rw [h'.knot i (hi.trans_le h.knots_le), h.knot i hi]
  · intro s hs
    rw [h'.segment s (hs.trans_le h.segments_le), h.segment s hs]

theorem Leads.congr {f f' : Figure α} {r : Row α} {i s j : ℕ} (h : f.Leads r i s j)
    (hknot : f'.knot i = f.knot i) (hsegment : f'.segment s = f.segment s) : f'.Leads r i s j := by
  obtain ⟨h1, h2, h3, h4, h5, h6, h7, h8⟩ := h
  rw [← hknot] at h1 h2 h3 h4 h5
  rw [← hsegment] at h6 h7 h8
  exact ⟨h1, h2, h3, h4, h5, h6, h7, h8⟩

/-- A segment leads along the same row when the last knot is joined with the first one, but the
segment that is joined leads to the first one then. -/
theorem Leads.joinLast {f : Figure α} {r : Row α} {i s j : ℕ} (h : f.Leads r i s j) (first : ℕ)
    (removed : Knot α) (segment : ℕ) (hfirst : first + 1 < f.knots.size)
    (hi : i + 1 < f.knots.size) (hs : s < f.segments.size) :
    (Builder.joinLast f first removed segment).Leads r i s (if s = segment then first else j) := by
  obtain ⟨_, _, _, hknot⟩ := Builder.knot_joinLast_leaving f first removed segment i hfirst hi
  obtain ⟨stop, hsegment, hstop⟩ : ∃ stop,
      (Builder.joinLast f first removed segment).segment s = { f.segment s with stop } ∧
        stop = if s = segment then first else j := by
    have hsegment := Builder.segment_joinLast f first removed segment s hs
    split_ifs at hsegment ⊢
    · exact ⟨_, hsegment, rfl⟩
    · exact ⟨_, hsegment, h.stop⟩
  exact
    { anchor := by rw [hknot]; exact h.anchor
      number := by rw [hknot]; exact h.number
      control := by rw [hknot]; exact h.control
      controlNumber := by rw [hknot]; exact h.controlNumber
      segmentOut := by rw [hknot]; exact h.segmentOut
      stop := by rw [hsegment]; exact hstop
      order := by rw [hsegment]; exact h.order
      isLine := by rw [hsegment]; exact h.isLine }

end Figure

namespace Builder

theorem ArcDrawn.leads {b b' : Builder α} {first last : ℕ} {control : Option (OutlinePoint α)}
    {p stop : OutlinePoint α} (h : b.ArcDrawn first last control stop b')
    (hanchor : (b.figure.knot last).anchor = p.position)
    (hnumber : (b.figure.knot last).number = p.number)
    (hcontrol : (b.figure.knot last).controlOut = none) :
    b'.figure.Leads ⟨p, control⟩ last b.figure.segments.size (last + 1) := by
  have hknot := h.knot last
  have hsegment := Figure.segment_of_push h.segments b.figure.segments.size
  rw [if_neg (by omega), if_pos rfl] at hknot
  rw [if_pos rfl] at hsegment
  have hanchor' : (b'.figure.knot last).anchor = p.position := by
    rw [hknot, ← hanchor]
    cases control <;> rfl
  have hnumber' : (b'.figure.knot last).number = p.number := by
    rw [hknot, ← hnumber]
    cases control <;> rfl
  have hcontrol' : (b'.figure.knot last).controlOut = control.map (·.position) := by
    rw [hknot]
    cases control with
    | none => exact hcontrol
    | some c => rfl
  refine ⟨hanchor', hnumber', hcontrol', ?_, ?_, ?_, ?_, ?_⟩
  · rintro c rfl
    rw [hknot]
    rfl
  · rw [hknot]
    cases control <;> rfl
  all_goals rw [hsegment]

/-- A contour that is being drawn after a figure, with its rows up to the newest knot. -/
structure IsTrail (f : Figure α) (rows : List (Row α)) (stop : OutlinePoint α) (b : Builder α) :
    Prop where
  path : b.path = some (f.knots.size, f.knots.size + rows.length)
  order : b.order = .quadratic
  contours : b.figure.contours = f.contours
  size : b.figure.knots.size = f.knots.size + rows.length + 1
  segments : b.figure.segments.size = f.segments.size + rows.length
  kept : f.Extends b.figure
  leads : ∀ i (hi : i < rows.length), b.figure.Leads rows[i] (f.knots.size + i)
    (f.segments.size + i) (f.knots.size + i + 1)
  starts : ∀ i < rows.length, (b.figure.segment (f.segments.size + i)).start = f.knots.size + i
  anchor : (b.figure.knot (f.knots.size + rows.length)).anchor = stop.position
  number : (b.figure.knot (f.knots.size + rows.length)).number = stop.number
  control : (b.figure.knot (f.knots.size + rows.length)).controlOut = none
  segmentOut : (b.figure.knot (f.knots.size + rows.length)).segmentOut = none
  segmentIn : ∀ n, rows.length = n + 1 →
    (b.figure.knot (f.knots.size + rows.length)).segmentIn = some (f.segments.size + n)

theorem isTrail_moveTo {b : Builder α} (hpath : b.path = none) (horder : b.order = .quadratic)
    (p : OutlinePoint α) :
    IsTrail b.figure [] p ((b.moveTo p.position).modifyCurrent ({ · with number := p.number })) := by
  have hmove : b.moveTo p.position =
      { b with
        figure := b.figure.addKnot { anchor := p.position }
        path := some (b.figure.knots.size, b.figure.knots.size) } := by
    rw [moveTo, endContour, hpath]
  have hknot := Figure.knot_modifyKnot_addKnot b.figure { anchor := p.position }
    ({ · with number := p.number })
  rw [hmove, modifyCurrent_eq rfl]
  refine ⟨rfl, horder, by simp [modifyKnot], by simp [modifyKnot], by simp [modifyKnot], ?_, nofun,
    nofun, ?_, ?_, ?_, ?_, nofun⟩
  · refine ⟨by simp [modifyKnot], by simp [modifyKnot], fun i hi => ?_, fun s _ => rfl⟩
    rw [modifyKnot, hknot, if_neg hi.ne]
  all_goals
    rw [modifyKnot, List.length_nil, Nat.add_zero, hknot, if_pos rfl]

theorem IsTrail.arc {f : Figure α} {rows : List (Row α)} {p : OutlinePoint α} {b : Builder α}
    (h : IsTrail f rows p b) (control : Option (OutlinePoint α)) (stop : OutlinePoint α) :
    IsTrail f (rows ++ [⟨p, control⟩]) stop (b.arc control stop) := by
  have hsize := h.size
  have hsegments := h.segments
  have hdrawn := arc_drawn control stop h.path h.order h.size.symm h.control
  have hleads := hdrawn.leads h.anchor h.number h.control
  obtain ⟨hpath, horder, hcontours, hknots, hpush, hknot⟩ := hdrawn
  have hsegment := Figure.segment_of_push hpush
  have hlength : (rows ++ [(⟨p, control⟩ : Row α)]).length = rows.length + 1 := by simp
  have hnewest := hknot (f.knots.size + rows.length + 1)
  rw [if_pos rfl] at hnewest
  refine ⟨?_, horder, hcontours.trans h.contours, ?_, ?_, ?_, ?_, ?_, ?_, ?_, ?_, ?_, ?_⟩
  · rw [hpath, hlength, Nat.add_assoc]
  · rw [hknots, hsize, hlength]
    omega
  · rw [hpush, Array.size_push, hsegments, hlength]
    omega
  · refine ⟨by omega, by rw [hpush, Array.size_push]; omega, fun i hi => ?_, fun s hs => ?_⟩
    · rw [hknot, if_neg (by omega), if_neg (by omega), h.kept.knot i hi]
    · rw [hsegment, if_neg (by omega), h.kept.segment s hs]
  · intro i hi
    rw [hlength] at hi
    by_cases hlt : i < rows.length
    · rw [List.getElem_append_left hlt]
      refine (h.leads i hlt).congr ?_ ?_
      · rw [hknot, if_neg (by omega), if_neg (by omega)]
      · rw [hsegment, if_neg (by omega)]
    · obtain rfl : i = rows.length := by omega
      rw [List.getElem_concat_length rfl, ← hsegments]
      exact hleads
  · intro i hi
    rw [hlength] at hi
    rw [hsegment]
    split_ifs with hlast
    · show f.knots.size + rows.length = _
      omega
    · exact h.starts i (by omega)
  · rw [hlength, ← Nat.add_assoc, hnewest]
    rfl
  · rw [hlength, ← Nat.add_assoc, hnewest]
    rfl
  · rw [hlength, ← Nat.add_assoc, hnewest]
    rfl
  · rw [hlength, ← Nat.add_assoc, hnewest]
    rfl
  · intro n hn
    rw [hlength] at hn ⊢
    rw [← Nat.add_assoc, hnewest, hsegments, Nat.succ.inj hn]
    rfl

end Builder

-- ---------------------------------------------------------------------------
-- Loops
-- ---------------------------------------------------------------------------

namespace Figure

open OutlinePoint (dropImplied turnToLowest)

variable {f : Figure α} {rows : List (Row α)} {first segment : ℕ}

/-- Every row leads to the next one, and the last one to the first. -/
def IsLoop (f : Figure α) (rows : List (Row α)) (first segment : ℕ) : Prop :=
  ∀ i (hi : i < rows.length), f.Leads rows[i] (first + i) (segment + i)
    (if i + 1 = rows.length then first else first + i + 1)

theorem following_loop (h : f.IsLoop rows first segment) {i count limit : ℕ}
    (hi : i + 1 + count = rows.length) (hlimit : count ≤ limit) :
    f.following first limit (first + i) = List.range' (first + i + 1) count := by
  induction count generalizing i limit with
  | zero =>
    cases limit with
    | zero => rfl
    | succ limit =>
      have hleads := h i (by omega)
      rw [if_pos hi] at hleads
      simp [following, hleads.segmentOut, hleads.stop]
  | succ count ih =>
    cases limit with
    | zero => omega
    | succ limit =>
      have hleads := h i (by omega)
      rw [if_neg (by omega)] at hleads
      have hrest : f.following first limit (first + (i + 1)) =
          List.range' (first + (i + 1) + 1) count := ih (by omega) (by omega)
      rw [← Nat.add_assoc] at hrest
      simp only [following, hleads.segmentOut, hleads.stop]
      rw [if_neg (by omega), hrest, List.range'_succ]

theorem outlinePoints_loop (h : f.IsLoop rows first segment) (hrows : rows ≠ [])
    (hsize : first + rows.length ≤ f.knots.size) :
    f.outlinePoints { first, last := first + rows.length - 1 } =
      turnToLowest (dropImplied true (rows.flatMap Row.points)) := by
  have hpos : 0 < rows.length := List.length_pos_iff.mpr hrows
  have hknots : f.contourKnots { first, last := first + rows.length - 1 } =
      List.range' first rows.length := by
    have hfollowing : f.following first f.knots.size (first + 0) =
        List.range' (first + 0 + 1) (rows.length - 1) :=
      following_loop h (by omega) (by omega)
    rw [Nat.add_zero] at hfollowing
    obtain ⟨n, hn⟩ : ∃ n, rows.length = n + 1 := ⟨rows.length - 1, by omega⟩
    rw [contourKnots, hfollowing, hn, List.range'_succ]
    rfl
  have hpoints : (List.range' first rows.length).flatMap f.pointsFrom = rows.flatMap Row.points := by
    rw [List.flatMap_def, List.flatMap_def]
    congr 1
    refine List.ext_getElem (by simp) fun i hi _ => ?_
    have hlt : i < rows.length := by simpa using hi
    simpa using (h i hlt).pointsFrom
  have hclosed : f.isClosed { first, last := first + rows.length - 1 } = true := by
    have hleads := h (rows.length - 1) (by omega)
    rw [if_pos (by omega), ← Nat.add_sub_assoc hpos] at hleads
    simp [isClosed, hleads.segmentOut, hleads.stop]
  rw [outlinePoints, hclosed, hknots, hpoints]
  rfl

theorem outlinePoints_single (hout : (f.knot first).segmentOut = none) :
    f.outlinePoints { first, last := first } =
      [{ position := (f.knot first).anchor, onCurve := true, number := (f.knot first).number }] := by
  have hfollowing (limit : ℕ) : f.following first limit first = [] := by
    cases limit <;> simp [following, hout]
  have hpoints : (f.contourKnots { first, last := first }).flatMap f.pointsFrom =
      [{ position := (f.knot first).anchor, onCurve := true, number := (f.knot first).number }] := by
    simp [contourKnots, hfollowing, pointsFrom, hout]
  have hopen : f.isClosed { first, last := first } = false := by simp [isClosed, hout]
  rw [outlinePoints, hpoints, hopen]
  rfl

/-- A contour has these points, however much is drawn after it. -/
def Shows (f : Figure α) (c : Contour) (points : List (OutlinePoint α)) : Prop :=
  ∀ f', f.Extends f' → f'.outlinePoints c = points

theorem IsLoop.extends {f' : Figure α} (h : f.IsLoop rows first segment) (h' : f.Extends f')
    (hknots : first + rows.length ≤ f.knots.size)
    (hsegments : segment + rows.length ≤ f.segments.size) : f'.IsLoop rows first segment :=
  fun i hi => (h i hi).congr (h'.knot _ (by omega)) (h'.segment _ (by omega))

end Figure

namespace Builder

open OutlinePoint (dropImplied turnToLowest)

/-- A contour with these points has been drawn after a figure. -/
structure Adds (f : Figure α) (points : List (OutlinePoint α)) (b : Builder α) : Prop where
  path : b.path = none
  order : b.order = .quadratic
  kept : f.Extends b.figure
  contours : ∃ c, b.figure.contours = f.contours.push c ∧ b.figure.Shows c points

theorem IsTrail.close_eq {f : Figure α} {rows : List (Row α)} {stop : OutlinePoint α}
    {b : Builder α} (h : IsTrail f rows stop b) {n : ℕ} (hn : rows.length = n + 1)
    (hanchor : (b.figure.knot f.knots.size).anchor = stop.position)
    (hclose : stop.position.isClose stop.position = true) :
    b.close =
      { b with
        figure := (joinLast b.figure f.knots.size (b.figure.knot (f.knots.size + rows.length))
          (f.segments.size + n)).addContour { first := f.knots.size, last := f.knots.size + n }
        path := none } := by
  have hcoincides : (stop.position.isClose stop.position &&
      f.knots.size + rows.length + 1 == b.figure.knots.size) = true := by
    rw [hclose, h.size]
    simp
  rw [Builder.close, endContour, h.path]
  dsimp only
  rw [hanchor, h.anchor, if_neg (by omega), if_pos hcoincides, h.segmentIn n hn]
  dsimp only
  rw [h.starts n (by omega)]

theorem IsTrail.close {f : Figure α} {rows : List (Row α)} {stop : OutlinePoint α} {b : Builder α}
    (h : IsTrail f rows stop b) (hrows : rows.head?.map (·.knot.position) = some stop.position)
    (hclose : stop.position.isClose stop.position = true) :
    Adds f (turnToLowest (dropImplied true (rows.flatMap Row.points))) b.close := by
  obtain ⟨n, hn⟩ : ∃ n, rows.length = n + 1 := by
    cases rows with
    | nil => cases hrows
    | cons r rows => exact ⟨rows.length, rfl⟩
  have hsize := h.size
  have hsegments := h.segments
  have hanchor : (b.figure.knot f.knots.size).anchor = stop.position := by
    refine ((h.leads 0 (by omega)).anchor).trans ?_
    rw [List.head?_eq_getElem?, List.getElem?_eq_getElem (by omega)] at hrows
    exact Option.some.inj hrows
  let removed := b.figure.knot (f.knots.size + rows.length)
  let g := (joinLast b.figure f.knots.size removed (f.segments.size + n)).addContour
    { first := f.knots.size, last := f.knots.size + n }
  have hclosed : b.close = { b with figure := g, path := none } := h.close_eq hn hanchor hclose
  have hknots : g.knots.size = f.knots.size + rows.length := by
    simp [g, Figure.addContour, joinLast, hsize]
  have hcount : g.segments.size = f.segments.size + rows.length := by
    simp [g, Figure.addContour, joinLast, hsegments]
  have hknot (i : ℕ) (hi : i < f.knots.size + rows.length) := knot_joinLast b.figure f.knots.size
    removed (f.segments.size + n) i (by omega) (by omega)
  have hsegment (s : ℕ) (hs : s < f.segments.size + rows.length) :=
    segment_joinLast b.figure f.knots.size removed (f.segments.size + n) s (by omega)
  have hkept : f.Extends g := by
    refine ⟨by omega, by omega, fun i hi => ?_, fun s hs => ?_⟩
    · refine (hknot i (by omega)).trans ?_
      rw [if_neg (by omega), h.kept.knot i hi]
    · refine (hsegment s (by omega)).trans ?_
      rw [if_neg (by omega), h.kept.segment s hs]
  have hloop : g.IsLoop rows f.knots.size f.segments.size := by
    intro i hi
    have hleads := (h.leads i hi).joinLast f.knots.size removed (f.segments.size + n) (by omega)
      (by omega) (by omega)
    have hstop : (if f.segments.size + i = f.segments.size + n then f.knots.size
        else f.knots.size + i + 1) =
          if i + 1 = rows.length then f.knots.size else f.knots.size + i + 1 :=
      if_congr (by omega) rfl rfl
    rw [hstop] at hleads
    exact hleads.congr rfl rfl
  rw [hclosed]
  refine ⟨rfl, h.order, hkept, { first := f.knots.size, last := f.knots.size + n }, ?_, ?_⟩
  · show b.figure.contours.push _ = _
    rw [h.contours]
  · intro f' hf'
    have hlast : f.knots.size + n = f.knots.size + rows.length - 1 := by omega
    have hrows : rows ≠ [] := by
      rintro rfl
      cases hn
    rw [hlast]
    exact Figure.outlinePoints_loop (hloop.extends hf' hknots.ge hcount.ge) hrows
      (hknots.ge.trans hf'.knots_le)

theorem IsTrail.close_single {f : Figure α} {p : OutlinePoint α} {b : Builder α}
    (h : IsTrail f [] p b) : Adds f [{ p with onCurve := true }] b.close := by
  have hclosed : b.close =
      { b with
        figure := b.figure.addContour { first := f.knots.size, last := f.knots.size }
        path := none } := by
    rw [Builder.close, endContour, h.path]
    dsimp only
    rw [List.length_nil, Nat.add_zero, if_pos rfl]
  have hsize := h.size
  rw [List.length_nil, Nat.add_zero] at hsize
  rw [hclosed]
  refine ⟨rfl, h.order, ?_, { first := f.knots.size, last := f.knots.size }, ?_, ?_⟩
  · exact ⟨h.kept.knots_le, h.kept.segments_le, h.kept.knot, h.kept.segment⟩
  · show b.figure.contours.push _ = _
    rw [h.contours]
  · intro f' hf'
    have hknot : f'.knot f.knots.size = b.figure.knot f.knots.size :=
      hf'.knot f.knots.size (by show _ < b.figure.knots.size; omega)
    rw [Figure.outlinePoints_single (by rw [hknot]; exact h.segmentOut), hknot]
    have hanchor : (b.figure.knot f.knots.size).anchor = p.position := h.anchor
    have hnumber : (b.figure.knot f.knots.size).number = p.number := h.number
    rw [hanchor, hnumber]

end Builder

end Letterform
