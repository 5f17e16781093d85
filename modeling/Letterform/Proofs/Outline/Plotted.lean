import Letterform.Proofs.Number.Gridded
import Letterform.Proofs.Outline.Agreement
import Letterform.Proofs.Outline.Order
import Letterform.Proofs.Outline.Snapped
import Letterform.Proofs.Outline.WellFormed

/-!
# Outlines that are plotted on the grid

A pen that goes along the grid of charstring coordinates plots knots of which every control point
lies off its anchor. Points on this grid are close only if they are the same, so nothing moves where
a contour is joined.
-/

namespace Letterform

open Double (IsPlotted)

-- ---------------------------------------------------------------------------
-- Points
-- ---------------------------------------------------------------------------

structure Point.IsPlotted (p : Point Float) : Prop where
  x : Double.IsPlotted p.x
  y : Double.IsPlotted p.y

namespace Point

variable {p q : Point Float}

theorem isPlotted_default : (default : Point Float).IsPlotted :=
  ⟨Double.isPlotted_zero, Double.isPlotted_zero⟩

theorem IsPlotted.eq_of_beq (hp : p.IsPlotted) (hq : q.IsPlotted) (h : (p == q) = true) :
    p = q := by
  have hboth : (p.x == q.x && p.y == q.y) = true := h
  rw [Bool.and_eq_true] at hboth
  obtain ⟨px, py⟩ := p
  obtain ⟨qx, qy⟩ := q
  exact congrArg₂ Point.mk (Double.eq_of_beq hboth.1 hp.x.sign hq.x.sign)
    (Double.eq_of_beq hboth.2 hp.y.sign hq.y.sign)

theorem IsPlotted.eq_of_isClose (hp : p.IsPlotted) (hq : q.IsPlotted)
    (h : p.isClose q = true) : p = q := by
  rw [Point.isClose, Bool.and_eq_true] at h
  obtain ⟨px, py⟩ := p
  obtain ⟨qx, qy⟩ := q
  exact congrArg₂ Point.mk (hp.x.eq_of_isClose hq.x h.1) (hp.y.eq_of_isClose hq.y h.2)

end Point

-- ---------------------------------------------------------------------------
-- Knots
-- ---------------------------------------------------------------------------

/-- A knot on the grid with its control points off its anchor. -/
structure Knot.IsPlotted (k : Knot Float) : Prop where
  anchor : k.anchor.IsPlotted
  controlIn : ∀ c ∈ k.controlIn, c.IsPlotted ∧ (c == k.anchor) = false
  controlOut : ∀ c ∈ k.controlOut, c.IsPlotted ∧ (c == k.anchor) = false

namespace Knot

variable {k : Knot Float} {c p : Point Float}

theorem isPlotted_of_anchor (hp : p.IsPlotted) : ({ anchor := p } : Knot Float).IsPlotted :=
  ⟨hp, nofun, nofun⟩

theorem isPlotted_default : (default : Knot Float).IsPlotted :=
  isPlotted_of_anchor Point.isPlotted_default

theorem isPlotted_control (hc : c.IsPlotted) :
    ∀ c' ∈ (if c == p then none else some c), c'.IsPlotted ∧ (c' == p) = false := by
  intro c' hmem
  split_ifs at hmem with h
  · cases hmem
  · cases hmem
    exact ⟨hc, Bool.eq_false_iff.mpr h⟩

theorem IsPlotted.arriving (h : k.IsPlotted) : k.arriving.IsPlotted := by
  unfold Knot.arriving
  cases hc : k.controlIn with
  | none => exact h.anchor
  | some c => exact (h.controlIn c hc).1

theorem IsPlotted.leaving (h : k.IsPlotted) : k.leaving.IsPlotted := by
  unfold Knot.leaving
  cases hc : k.controlOut with
  | none => exact h.anchor
  | some c => exact (h.controlOut c hc).1

end Knot

-- ---------------------------------------------------------------------------
-- Figures
-- ---------------------------------------------------------------------------

namespace Figure

def IsPlotted (f : Figure Float) : Prop := ∀ i, (f.knot i).IsPlotted

variable {f : Figure Float}

theorem IsPlotted.modifyKnot (h : f.IsPlotted) (i : ℕ) {change : Knot Float → Knot Float}
    (hchange : (f.knot i).IsPlotted → (change (f.knot i)).IsPlotted) :
    (f.modifyKnot i change).IsPlotted := by
  intro j
  rw [knot_modifyKnot]
  split_ifs with hij
  · rw [← hij.1]
    exact hchange (h i)
  · exact h j

theorem IsPlotted.addKnot (h : f.IsPlotted) {k : Knot Float} (hk : k.IsPlotted) :
    (f.addKnot k).IsPlotted := by
  intro i
  rw [knot_addKnot]
  split_ifs
  · exact hk
  · exact h i

theorem IsPlotted.connect (h : f.IsPlotted) (start stop : ℕ) (order : CurveOrder) :
    (f.connect start stop order).IsPlotted := by
  have hadded (segments : Array Segment) : ({ f with segments } : Figure Float).IsPlotted := h
  exact ((hadded _).modifyKnot start fun h => ⟨h.1, h.2, h.3⟩).modifyKnot stop
    fun h => ⟨h.1, h.2, h.3⟩

theorem IsPlotted.joinLast (h : f.IsPlotted) {first : ℕ} (hfirst : first + 1 < f.knots.size)
    {removed : Knot Float} (hremoved : removed.IsPlotted) (segment : ℕ)
    (hanchor : (f.knot first).anchor = removed.anchor) :
    (Builder.joinLast f first removed segment).IsPlotted := by
  have hpop (i : ℕ) : ({ f with
      knots := f.knots.pop
      segments := f.segments.modify segment ({ · with stop := first }) } : Figure Float).knot i =
        if i + 1 < f.knots.size then f.knot i else default := f.knot_withoutLast i
  refine IsPlotted.modifyKnot (fun i => ?_) first fun hold => ⟨hold.anchor, ?_, hold.controlOut⟩
  · rw [hpop]
    split_ifs
    · exact h i
    · exact Knot.isPlotted_default
  · rw [hpop, if_pos hfirst, hanchor]
    exact hremoved.controlIn

end Figure

-- ---------------------------------------------------------------------------
-- Pens
-- ---------------------------------------------------------------------------

/-- A pen that has gone along the grid and drawn cubic curves. -/
structure Builder.IsPlotted (b : Builder Float) : Prop where
  sound : b.IsSound
  cubic : b.HasOrder .cubic
  knots : b.figure.IsPlotted

namespace Builder.IsPlotted

variable {b : Builder Float} {c1 c2 p : Point Float}

theorem empty : ({} : Builder Float).IsPlotted where
  sound := isSound_empty .cubic
  cubic := .empty .cubic
  knots i := by
    rcases Figure.knot_eq_or_mem (α := Float) {} i with heq | hmem
    · exact heq ▸ Knot.isPlotted_default
    · exact absurd hmem (Array.not_mem_empty _)

theorem endContour (h : b.IsPlotted) (close : Bool) : (b.endContour close).IsPlotted := by
  refine ⟨h.sound.endContour close, h.cubic.endContour close, ?_⟩
  rcases hpath : b.path with _ | ⟨first, last⟩
  · rw [Builder.endContour, hpath]
    exact h.knots
  have hsound := (isSound_of_some hpath).mp h.sound
  have hle := hsound.path.le
  have hsize := hsound.size
  have hknots := h.knots
  rw [Builder.endContour, hpath]
  dsimp only
  split_ifs with hsame hcoincides
  · exact hknots
  · rw [Bool.and_eq_true] at hcoincides
    have hanchor := (hknots first).anchor.eq_of_isClose (hknots last).anchor hcoincides.1
    split
    · exact hknots.joinLast (by omega) (hknots last) _ hanchor
    · exact hknots
  · have hleft : (b.figure.modifyKnot last ({ · with controlOut := none })).IsPlotted :=
      hknots.modifyKnot last fun k => ⟨k.anchor, k.controlIn, by rintro _ ⟨⟩⟩
    have hboth : ((b.figure.modifyKnot last ({ · with controlOut := none })).modifyKnot first
        ({ · with controlIn := none })).IsPlotted :=
      hleft.modifyKnot first fun k => ⟨k.anchor, by rintro _ ⟨⟩, k.controlOut⟩
    exact hboth.connect last first b.order
  · exact hknots

theorem moveTo (h : b.IsPlotted) (hp : p.IsPlotted) : (b.moveTo p).IsPlotted where
  sound := h.sound.moveTo p
  cubic := h.cubic.moveTo p
  knots := (h.endContour false).knots.addKnot (Knot.isPlotted_of_anchor hp)

theorem start (h : b.IsPlotted) (hp : p.IsPlotted) : (b.start p).IsPlotted := by
  unfold Builder.start
  split
  · exact h
  · exact h.moveTo hp

theorem modifyCurrent (h : b.IsPlotted) {change : Knot Float → Knot Float}
    (hin : ∀ k, (change k).segmentIn = k.segmentIn ∧ (change k).controlIn = k.controlIn)
    (hout : ∀ k, (change k).segmentOut = k.segmentOut)
    (hchange : ∀ k : Knot Float, k.IsPlotted → (change k).IsPlotted) :
    (b.modifyCurrent change).IsPlotted := by
  refine ⟨h.sound.modifyCurrent hin hout, h.cubic.modifyCurrent change, ?_⟩
  unfold Builder.modifyCurrent
  split
  · exact h.knots.modifyKnot _ (hchange _)
  · exact h.knots

theorem mark (h : b.IsPlotted) (mask : Option HintMask) : (b.mark mask).IsPlotted :=
  h.modifyCurrent (fun _ => ⟨rfl, rfl⟩) (fun _ => rfl) fun _ hk => ⟨hk.1, hk.2, hk.3⟩

theorem extend (h : b.IsPlotted) {k : Knot Float} (hin : k.segmentIn = none)
    (hout : k.segmentOut = none) (hk : k.IsPlotted) : (b.extend k .cubic).IsPlotted := by
  refine ⟨h.sound.extend hin hout .cubic, h.cubic.extend k, ?_⟩
  unfold Builder.extend
  split
  · exact h.knots
  · exact (h.knots.addKnot hk).connect _ _ _

theorem lineTo (h : b.IsPlotted) (hp : p.IsPlotted) : (b.lineTo p).IsPlotted := by
  have hstart := h.start hp
  have hextend := hstart.extend rfl rfl (Knot.isPlotted_of_anchor hp)
  rwa [← hstart.cubic.lines] at hextend

theorem curveTo (h : b.IsPlotted) (h1 : c1.IsPlotted) (h2 : c2.IsPlotted) (hp : p.IsPlotted) :
    (b.curveTo c1 c2 p).IsPlotted := by
  have hleaving : ((b.start c1).modifyCurrent fun k =>
      { k with controlOut := if c1 == k.anchor then none else some c1 }).IsPlotted :=
    (h.start h1).modifyCurrent (fun _ => ⟨rfl, rfl⟩) (fun _ => rfl)
      fun k hk => ⟨hk.anchor, hk.controlIn, Knot.isPlotted_control h1⟩
  exact hleaving.extend (k := { anchor := p, controlIn := if c2 == p then none else some c2 })
    rfl rfl ⟨hp, Knot.isPlotted_control h2, nofun⟩

theorem finish (h : b.IsPlotted) : b.finish.IsPlotted := (h.endContour false).knots

end Builder.IsPlotted

-- ---------------------------------------------------------------------------
-- Figures that agree
-- ---------------------------------------------------------------------------

theorem Point.IsPlotted.eq_of_rel {c c' : Option (Point Float)}
    (h : Option.Rel Point.Agree c c') (hc : ∀ p ∈ c, p.IsPlotted) (hc' : ∀ p ∈ c', p.IsPlotted) :
    c = c' := by
  cases h with
  | none => rfl
  | some h => exact congrArg some ((hc _ rfl).eq_of_beq (hc' _ rfl) h.beq)

theorem Knot.Agree.eq {k k' : Knot Float} (h : k.Agree True k') (hk : k.IsPlotted)
    (hk' : k'.IsPlotted) : k = k' := by
  have hanchor := hk.anchor.eq_of_beq hk'.anchor h.anchor.beq
  have hin := Point.IsPlotted.eq_of_rel h.controlIn (fun p hp => (hk.controlIn p hp).1)
    fun p hp => (hk'.controlIn p hp).1
  have hout := Point.IsPlotted.eq_of_rel h.controlOut (fun p hp => (hk.controlOut p hp).1)
    fun p hp => (hk'.controlOut p hp).1
  obtain ⟨-, -, -, hmask, hnumber, hcontrol, hsegmentIn, hsegmentOut⟩ := h
  obtain ⟨⟩ := k
  obtain ⟨⟩ := k'
  have hmask := hmask trivial
  dsimp only at *
  subst_vars
  rfl

theorem Figure.Agree.eq {f f' : Figure Float} (h : f.Agree True f') (hf : f.IsPlotted)
    (hf' : f'.IsPlotted) : f = f' := by
  have hknots : f.knots = f'.knots := by
    refine Array.ext h.size fun i hi hi' => ?_
    have hknot := (h.knots i).eq (hf i) (hf' i)
    simpa [Figure.knot, Array.getD_eq_getD_getElem?, hi, hi'] using hknot
  obtain ⟨⟩ := f
  obtain ⟨⟩ := f'
  obtain rfl := hknots
  obtain rfl := h.segments
  obtain rfl := h.contours
  rfl

end Letterform
