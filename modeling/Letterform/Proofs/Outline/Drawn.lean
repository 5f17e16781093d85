import Letterform.Proofs.Outline.Strokes

/-!
# Figures that have been drawn

While a figure is drawn its knots may be given masks and numbers. Neither has a part in how the
outline goes on. There is no control point between the ends of a contour, unless the contour has
come back to its first knot and its ends have been joined there.
-/

namespace Letterform

variable {α : Type}

inductive Attribute
  | mask (mask : Option HintMask)
  | number (number : Option ℕ)
  | controlNumber (number : Option ℕ)

def Attribute.put : Attribute → Knot α → Knot α
  | .mask m, k => { k with mask := m }
  | .number n, k => { k with number := n }
  | .controlNumber n, k => { k with controlNumber := n }

/-- What a builder can be asked for: to draw, and to give an attribute to a knot. -/
inductive Call (α : Type)
  | draw (command : PenCommand α)
  | put (i : ℕ) (a : Attribute)

/-- The anchor, the control points and the segments of a knot stay. -/
structure Knot.KeepsShape (change : Knot α → Knot α) : Prop where
  anchor : ∀ k, (change k).anchor = k.anchor
  controlIn : ∀ k, (change k).controlIn = k.controlIn
  controlOut : ∀ k, (change k).controlOut = k.controlOut
  segmentIn : ∀ k, (change k).segmentIn = k.segmentIn
  segmentOut : ∀ k, (change k).segmentOut = k.segmentOut

theorem Attribute.keepsShape (a : Attribute) : Knot.KeepsShape (α := α) a.put := by
  cases a <;> exact ⟨fun _ => rfl, fun _ => rfl, fun _ => rfl, fun _ => rfl, fun _ => rfl⟩

variable [Scalar α]

namespace Builder

def call (b : Builder α) : Call α → Builder α
  | .draw command => b.obey command
  | .put i a => b.modifyKnot i a.put

def callAll (b : Builder α) (calls : List (Call α)) : Builder α := calls.foldl call b

end Builder

namespace Figure

def IsDrawn (f : Figure α) : Prop :=
  ∃ order calls, f = (({ order } : Builder α).callAll calls).finish

variable {f f' : Figure α} {change : Knot α → Knot α} {first last : ℕ}

-- ---------------------------------------------------------------------------
-- Attributes
-- ---------------------------------------------------------------------------

theorem Joins.modifyShape {s i j : ℕ} (h : f.Joins s i j) (n : ℕ)
    (hchange : Knot.KeepsShape change) : (f.modifyKnot n change).Joins s i j :=
  h.modifyKnot n change (fun _ => ⟨hchange.segmentOut _, hchange.controlOut _⟩)
    fun _ => ⟨hchange.segmentIn _, hchange.controlIn _⟩

theorem knot_modifyShape (f : Figure α) (n i : ℕ) (hchange : Knot.KeepsShape change) :
    ((f.modifyKnot n change).knot i).anchor = (f.knot i).anchor ∧
      ((f.modifyKnot n change).knot i).controlIn = (f.knot i).controlIn ∧
      ((f.modifyKnot n change).knot i).controlOut = (f.knot i).controlOut ∧
      ((f.modifyKnot n change).knot i).segmentIn = (f.knot i).segmentIn ∧
      ((f.modifyKnot n change).knot i).segmentOut = (f.knot i).segmentOut := by
  rw [knot_modifyKnot]
  split_ifs
  · exact ⟨hchange.anchor _, hchange.controlIn _, hchange.controlOut _, hchange.segmentIn _,
      hchange.segmentOut _⟩
  · exact ⟨rfl, rfl, rfl, rfl, rfl⟩

theorem IsTiled.modifyShape {stop : ℕ} (h : f.IsTiled stop) (hstop : stop ≤ f.knots.size) (n : ℕ)
    (hchange : Knot.KeepsShape change) : (f.modifyKnot n change).IsTiled stop := by
  have hkeeps : Keeps stop f (f.modifyKnot n change) :=
    ⟨fun _ _ hs => hs.modifyShape n hchange,
      fun i _ => (knot_modifyShape f n i hchange).2.2.2.1,
      fun i _ => (knot_modifyShape f n i hchange).2.2.2.2⟩
  refine h.keeps hkeeps rfl (by simpa using hstop) fun s hs => ?_
  obtain ⟨i, j, hjoins⟩ := h.joined s hs
  exact ⟨i, j, hjoins.modifyShape n hchange⟩

-- ---------------------------------------------------------------------------
-- The ends of contours
-- ---------------------------------------------------------------------------

/-- There is no control point on the way from the last of some knots to the first. -/
structure IsBare (f : Figure α) (first last : ℕ) : Prop where
  controlIn : (f.knot first).controlIn = none
  controlOut : (f.knot last).controlOut = none

/-- A contour ends without control points, and without a segment if it has but one knot. Else it has
come back to where it started. -/
def HasEnd (f : Figure α) (c : Contour) : Prop :=
  f.IsBare c.first c.last ∧ (c.first = c.last → (f.knot c.last).segmentOut = none) ∨
    (f.knot c.last).segmentOut.isSome = true ∧ ∃ p, (f.knot c.first).anchor.isClose p = true

theorem HasEnd.congr {c : Contour} (h : f.HasEnd c)
    (hanchor : (f'.knot c.first).anchor = (f.knot c.first).anchor)
    (hin : (f'.knot c.first).controlIn = (f.knot c.first).controlIn)
    (hout : (f'.knot c.last).controlOut = (f.knot c.last).controlOut)
    (hsegment : (f'.knot c.last).segmentOut = (f.knot c.last).segmentOut) : f'.HasEnd c := by
  rcases h with ⟨hbare, hsingle⟩ | ⟨hsome, p, hp⟩
  · exact .inl ⟨⟨hin.trans hbare.controlIn, hout.trans hbare.controlOut⟩,
      fun hsame => hsegment.trans (hsingle hsame)⟩
  · exact .inr ⟨by rw [hsegment, hsome], p, by rw [hanchor, hp]⟩

theorem HasEnd.isBare {c : Contour} (h : f.HasEnd c) (hloose : f.IsLoose c.first c.last) :
    f.IsBare c.first c.last := by
  rcases h with ⟨hbare, -⟩ | ⟨hsome, -⟩
  · exact hbare
  · rw [hloose.segmentOut] at hsome
    cases hsome

theorem HasEnd.of_knots {c : Contour} (h : f.HasEnd c) (hfirst : f'.knot c.first = f.knot c.first)
    (hlast : f'.knot c.last = f.knot c.last) : f'.HasEnd c :=
  h.congr (by rw [hfirst]) (by rw [hfirst]) (by rw [hlast]) (by rw [hlast])

/-- What is known of a figure whose contours have all been ended. -/
structure IsNeat (f : Figure α) : Prop where
  tiled : f.IsTiled f.knots.size
  ends : ∀ c ∈ f.contours, f.HasEnd c

end Figure

namespace Builder

variable {b : Builder α} {change : Knot α → Knot α} {first last : ℕ}

structure IsNeat (b : Builder α) : Prop where
  sound : b.IsSound
  ends : ∀ c ∈ b.figure.contours, b.figure.HasEnd c
  bare : ∀ first last, b.path = some (first, last) → b.figure.IsBare first last

theorem isNeat_empty (order : CurveOrder) : ({ order } : Builder α).IsNeat :=
  ⟨isSound_empty order, fun c hc => absurd hc (Array.not_mem_empty c), nofun⟩

theorem IsSound.contour_lt (h : b.IsSound) (hpath : b.path = some (first, last)) {c : Contour}
    (hc : c ∈ b.figure.contours) : c.first < first ∧ c.last < first := by
  have htiled := ((isSound_of_some hpath).mp h).tiled
  have hc := Array.mem_toList_iff.mpr hc
  have hlast := htiled.tiles.lt.2 c hc
  exact ⟨(htiled.traced c hc).path.le.trans_lt hlast, hlast⟩

theorem IsSound.first_le (h : b.IsSound) (hpath : b.path = some (first, last)) :
    first ≤ last ∧ last + 1 = b.figure.knots.size :=
  have hdrawing := (isSound_of_some hpath).mp h
  ⟨hdrawing.path.le, hdrawing.size⟩

theorem IsSound.modifyShape (h : b.IsSound) (n : ℕ) (hchange : Knot.KeepsShape change) :
    (b.modifyKnot n change).IsSound := by
  rcases hpath : b.path with _ | ⟨first, last⟩
  · have htiled := ((isSound_of_none hpath).mp h).modifyShape le_rfl n hchange
    refine (isSound_of_none (b := b.modifyKnot n change) hpath).mpr ?_
    rwa [modifyKnot, Figure.size_modifyKnot]
  · exact (isSound_of_some (b := b.modifyKnot n change) hpath).mpr
      (((isSound_of_some hpath).mp h).modifyKnot hchange.segmentIn hchange.segmentOut
        fun hs => hs.modifyShape n hchange)

theorem IsNeat.modifyShape (h : b.IsNeat) (n : ℕ) (hchange : Knot.KeepsShape change) :
    (b.modifyKnot n change).IsNeat := by
  have hknot (i : ℕ) := Figure.knot_modifyShape b.figure n i hchange
  refine ⟨h.sound.modifyShape n hchange, fun c hc => ?_, fun first last hpath => ?_⟩
  · exact (h.ends c hc).congr (hknot _).1 (hknot _).2.1 (hknot _).2.2.1 (hknot _).2.2.2.2
  · exact ⟨(hknot _).2.1.trans (h.bare _ _ hpath).controlIn,
      (hknot _).2.2.1.trans (h.bare _ _ hpath).controlOut⟩

theorem IsNeat.modifyCurrent (h : b.IsNeat) (hchange : Knot.KeepsShape change) :
    (b.modifyCurrent change).IsNeat := by
  unfold Builder.modifyCurrent
  split
  · exact h.modifyShape _ hchange
  · exact h

/-- The ends of a contour are joined if they meet, else it is left open or closed by a line. -/
theorem IsNeat.figure_endContour (h : b.IsNeat) (hpath : b.path = some (first, last))
    (close : Bool) :
    (b.endContour close).figure =
      if first = last then b.figure.addContour ⟨first, last⟩
      else if (b.figure.knot first).anchor.isClose (b.figure.knot last).anchor then
        (joinLast b.figure first (b.figure.knot last)
          (b.figure.leavingSegment (last - 1))).addContour ⟨first, last - 1⟩
      else if close then (b.figure.connect last first b.order).addContour ⟨first, last⟩
      else b.figure.addContour ⟨first, last⟩ := by
  have hdrawing := (isSound_of_some hpath).mp h.sound
  have hle := hdrawing.path.le
  have hbare := h.bare first last hpath
  have hcoincides : ((b.figure.knot first).anchor.isClose (b.figure.knot last).anchor &&
      last + 1 == b.figure.knots.size) =
        (b.figure.knot first).anchor.isClose (b.figure.knot last).anchor := by
    rw [hdrawing.size, beq_self_eq_true, Bool.and_true]
  -- There is nothing to be cleared.
  have hcleared : (b.figure.modifyKnot last ({ · with controlOut := none })).modifyKnot first
      ({ · with controlIn := none }) = b.figure := by
    rw [b.figure.modifyKnot_eq_self last (by rw [← hbare.controlOut]),
      b.figure.modifyKnot_eq_self first (by rw [← hbare.controlIn])]
  rw [Builder.endContour, hpath]
  dsimp only
  rw [hcoincides, hcleared]
  split_ifs with hsame hmeets hclose
  · rfl
  · have hs := hdrawing.path.joins_leavingSegment (i := last - 1) (by omega) (by omega)
    rw [Nat.sub_add_cancel (by omega)] at hs
    rw [hs.segmentIn]
    dsimp only
    rw [hs.start]
  · rfl
  · rfl

theorem IsNeat.endContour (h : b.IsNeat) (close : Bool) : (b.endContour close).IsNeat := by
  refine ⟨h.sound.endContour close, ?_, fun _ _ hpath => by
    rw [path_endContour] at hpath
    cases hpath⟩
  rcases hpath : b.path with _ | ⟨first, last⟩
  · rw [Builder.endContour, hpath]
    exact h.ends
  have hdrawing := (isSound_of_some hpath).mp h.sound
  have hbare := h.bare first last hpath
  have hlt (c : Contour) (hc : c ∈ b.figure.contours) := h.sound.contour_lt hpath hc
  have hle := hdrawing.path.le
  have hsize := hdrawing.size
  -- A figure with the same knots below `first` has its contours and one more.
  have hpush {f : Figure α} {c : Contour} (hcontours : f.contours = b.figure.contours)
      (hbelow : ∀ i < first, f.knot i = b.figure.knot i) (hend : f.HasEnd c) :
      ∀ d ∈ (f.addContour c).contours, (f.addContour c).HasEnd d := by
    intro d hd
    rw [Figure.addContour, hcontours] at hd
    rcases Array.mem_push.mp hd with hd | rfl
    · exact (h.ends d hd).of_knots (hbelow _ (hlt d hd).1) (hbelow _ (hlt d hd).2)
    · exact hend.of_knots rfl rfl
  have hopen := hpush rfl (fun _ _ => rfl) (c := ⟨first, last⟩)
    (.inl ⟨hbare, fun _ => hdrawing.loose.segmentOut⟩)
  rw [h.figure_endContour hpath]
  split_ifs with hsame hmeets hclose
  · exact hopen
  · have hs := hdrawing.path.joins_leavingSegment (i := last - 1) (by omega) (by omega)
    have hknot (i : ℕ) (hi : i < last) := knot_joinLast b.figure first (b.figure.knot last)
      (b.figure.leavingSegment (last - 1)) i (by omega) (by omega)
    refine hpush rfl (fun i hi => (hknot i (by omega)).trans (if_neg hi.ne)) (.inr ⟨?_, ?_⟩)
    · obtain ⟨_, _, _, hk⟩ := knot_joinLast_leaving b.figure first (b.figure.knot last)
        (b.figure.leavingSegment (last - 1)) (last - 1) (by omega) (by omega)
      refine (congrArg (fun k : Knot α => k.segmentOut.isSome) hk).trans ?_
      rw [hs.segmentOut]
      rfl
    · rw [hknot first (by omega), if_pos rfl]
      exact ⟨_, hmeets⟩
  · have hknot := Figure.knot_connect b.figure last first b.order (Ne.symm hsame) (by omega)
      (by omega)
    refine hpush rfl (fun i hi => ?_) (.inl ⟨⟨?_, ?_⟩, fun h => absurd h hsame⟩)
    · rw [hknot, if_neg hi.ne, if_neg (by omega)]
    · rw [hknot, if_pos rfl, ← hbare.controlIn]
    · rw [hknot, if_neg (Ne.symm hsame), if_pos rfl, ← hbare.controlOut]
  · exact hopen

theorem IsNeat.finish (h : b.IsNeat) : b.finish.IsNeat :=
  have hend := h.endContour false
  ⟨(isSound_of_none (path_endContour false)).mp hend.sound, hend.ends⟩

theorem IsNeat.moveTo (h : b.IsNeat) (p : Point α) : (b.moveTo p).IsNeat := by
  have hend := h.endContour false
  have htiled := (isSound_of_none (path_endContour false)).mp hend.sound
  have hknot := Figure.knot_addKnot (b.endContour false).figure { anchor := p }
  refine ⟨h.sound.moveTo p, fun c hc => ?_, ?_⟩
  · have htraced := htiled.traced c (Array.mem_toList_iff.mpr hc)
    exact (hend.ends c hc).of_knots
      ((hknot _).trans (if_neg (htraced.path.le.trans_lt htraced.path.lt).ne))
      ((hknot _).trans (if_neg htraced.path.lt.ne))
  · rintro _ _ ⟨⟩
    have hnew := (hknot (b.endContour false).figure.knots.size).trans (if_pos rfl)
    exact ⟨by rw [Builder.moveTo, hnew], by rw [Builder.moveTo, hnew]⟩

theorem IsNeat.start (h : b.IsNeat) (p : Point α) : (b.start p).IsNeat := by
  unfold Builder.start
  split
  · exact h
  · exact h.moveTo p

theorem modifyCurrent_id (b : Builder α) : b.modifyCurrent id = b := by
  unfold modifyCurrent modifyKnot
  split
  · rw [Figure.modifyKnot_eq_self _ _ rfl]
  · rfl

theorem knot_draw (hsound : b.IsSound) (hpath : b.path = some (first, last))
    (change : Knot α → Knot α) (k : Knot α) (order : CurveOrder) (i : ℕ) :
    (((b.modifyCurrent change).extend k order).figure).knot i =
      if i = last + 1 then { k with segmentIn := some b.figure.segments.size }
      else if i = last then
        { change (b.figure.knot last) with segmentOut := some b.figure.segments.size }
      else b.figure.knot i := by
  have hsize := (hsound.first_le hpath).2
  have hextend := extend_eq (show (b.modifyKnot last change).path = some (first, last) from hpath) k
    order
  have hknot := Figure.knot_connect ((b.figure.modifyKnot last change).addKnot k) last
    b.figure.knots.size order (by omega) (by simp; omega) (by simp)
  rw [modifyCurrent_eq hpath, hextend]
  simp only [modifyKnot, Figure.size_modifyKnot]
  have hadded := Figure.knot_addKnot (b.figure.modifyKnot last change) k
  rw [Figure.size_modifyKnot] at hadded
  have hchanged := Figure.knot_modifyKnot_of_lt b.figure (show last < b.figure.knots.size by omega)
    change
  have hnewest : ((b.figure.modifyKnot last change).addKnot k).knot last =
      change (b.figure.knot last) := by
    rw [hadded, if_neg (by omega), hchanged, if_pos rfl]
  rw [hknot, hnewest, (hadded _).trans (if_pos rfl), ← hsize]
  refine ite_congr rfl (fun _ => rfl) fun hi => ite_congr rfl (fun _ => rfl) fun hi' => ?_
  rw [hadded, if_neg (by omega), hchanged, if_neg hi']

theorem draw_spec (hsound : b.IsSound) (hpath : b.path = some (first, last))
    (change : Knot α → Knot α) (k : Knot α) (order : CurveOrder) :
    ((b.modifyCurrent change).extend k order).path = some (first, last + 1) ∧
      ((b.modifyCurrent change).extend k order).figure.contours = b.figure.contours ∧
      ((b.modifyCurrent change).extend k order).figure.knots.size = last + 2 := by
  have hsize := (hsound.first_le hpath).2
  have hextend := extend_eq (show (b.modifyKnot last change).path = some (first, last) from hpath) k
    order
  rw [modifyCurrent_eq hpath, hextend, modifyKnot, Figure.size_connect, Figure.size_addKnot,
    Figure.size_modifyKnot, ← hsize]
  exact ⟨rfl, rfl, rfl⟩

theorem draw_none (hpath : b.path = none) (change : Knot α → Knot α) (k : Knot α)
    (order : CurveOrder) : (b.modifyCurrent change).extend k order = b := by
  have hmodify : b.modifyCurrent change = b := by
    rw [Builder.modifyCurrent, current, hpath]
    rfl
  rw [hmodify, Builder.extend, hpath]

theorem IsNeat.draw (h : b.IsNeat) {change : Knot α → Knot α} {k : Knot α} {order : CurveOrder}
    (hin : ∀ k, (change k).controlIn = k.controlIn) (hk : k.controlOut = none)
    (hsound : ((b.modifyCurrent change).extend k order).IsSound) :
    ((b.modifyCurrent change).extend k order).IsNeat := by
  rcases hpath : b.path with _ | ⟨first, last⟩
  · rwa [draw_none hpath]
  have hknot := knot_draw h.sound hpath change k order
  obtain ⟨hle, hsize⟩ := h.sound.first_le hpath
  have hdrawn := draw_spec h.sound hpath change k order
  refine ⟨hsound, fun c hc => ?_, fun first' last' hpath' => ?_⟩
  · rw [hdrawn.2.1] at hc
    obtain ⟨hfirst, hlast⟩ := h.sound.contour_lt hpath hc
    exact (h.ends c hc).of_knots
      (by rw [hknot, if_neg (by omega), if_neg (by omega)])
      (by rw [hknot, if_neg (by omega), if_neg (by omega)])
  · rw [hdrawn.1] at hpath'
    cases hpath'
    refine ⟨?_, by rw [hknot, if_pos rfl, ← hk]⟩
    have hbare := (h.bare first last hpath).controlIn
    rw [hknot, if_neg (by omega)]
    split_ifs with hfirst
    · rw [hin, ← hfirst, hbare]
    · exact hbare

theorem IsNeat.lineTo (h : b.IsNeat) (p : Point α) : (b.lineTo p).IsNeat := by
  have hsound : (b.lineTo p).IsSound := h.sound.obey (.lineTo p)
  have hline : b.lineTo p =
      ((b.start p).modifyCurrent id).extend { anchor := p } (b.start p).order := by
    rw [modifyCurrent_id]
    rfl
  rw [hline] at hsound ⊢
  exact (h.start p).draw (fun _ => rfl) rfl hsound

theorem IsNeat.obey (h : b.IsNeat) (command : PenCommand α) : (b.obey command).IsNeat := by
  have hsound := h.sound.obey command
  cases command with
  | moveTo p => exact h.moveTo p
  | lineTo p => exact h.lineTo p
  | quadTo c p => exact (h.start c).draw (fun _ => rfl) rfl hsound
  | curveTo c1 c2 p => exact (h.start c1).draw (fun _ => rfl) rfl hsound
  | close => exact h.endContour true

theorem IsNeat.call (h : b.IsNeat) (c : Call α) : (b.call c).IsNeat := by
  cases c with
  | draw command => exact h.obey command
  | put i a => exact h.modifyShape i a.keepsShape

theorem IsNeat.callAll (h : b.IsNeat) (calls : List (Call α)) : (b.callAll calls).IsNeat := by
  induction calls generalizing b with
  | nil => exact h
  | cons c rest ih => exact ih (h.call c)

end Builder

namespace Figure

theorem IsDrawn.isNeat {f : Figure α} (h : f.IsDrawn) : f.IsNeat := by
  obtain ⟨order, calls, rfl⟩ := h
  exact ((Builder.isNeat_empty order).callAll calls).finish

theorem IsNeat.traced {f : Figure α} (h : f.IsNeat) {c : Contour} (hc : c ∈ f.contours) :
    f.IsTraced c := h.tiled.traced c (Array.mem_toList_iff.mpr hc)

end Figure

end Letterform
