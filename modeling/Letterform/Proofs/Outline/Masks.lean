import Letterform.Proofs.Outline.Figure
import Letterform.Proofs.Outline.Snapped

/-!
# Masks of earlier knots

A builder goes on from the newest knot and looks at no masks. So it makes no difference whether a
knot gets its mask as soon as it is there or once more has been drawn.
-/

namespace Letterform

namespace Figure

section

variable {α : Type} (f : Figure α) (i : ℕ) (mask : Option HintMask)

def setMask : Figure α := f.modifyKnot i ({ · with mask })

theorem setMask_setMask (mask' : Option HintMask) :
    (f.setMask i mask).setMask i mask' = f.setMask i mask' := by
  unfold setMask modifyKnot
  congr 1
  refine Array.ext (by simp) fun j hj hj' => ?_
  simp only [Array.getElem_modify]
  split_ifs <;> rfl

theorem addKnot_setMask (hi : i < f.knots.size) (k : Knot α) :
    (f.setMask i mask).addKnot k = (f.addKnot k).setMask i mask := by
  unfold setMask modifyKnot addKnot
  congr 1
  refine Array.ext (by simp) fun j hj hj' => ?_
  simp only [Array.getElem_modify, Array.getElem_push, Array.size_modify]
  split_ifs <;> first | rfl | omega

theorem modifyKnot_setMask (j : ℕ) {change : Knot α → Knot α}
    (h : ∀ k, change { k with mask } = { change k with mask }) :
    (f.setMask i mask).modifyKnot j change = (f.modifyKnot j change).setMask i mask := by
  unfold setMask modifyKnot
  congr 1
  refine Array.ext (by simp) fun n hn hn' => ?_
  simp only [Array.getElem_modify]
  split_ifs <;> first | rfl | exact h _

variable [Scalar α]

theorem setMask_eq_self (h : (f.knot i).mask = mask) : f.setMask i mask = f := by
  subst h
  exact modifyKnot_eq_self f i rfl

theorem connect_setMask (start stop : ℕ) (order : CurveOrder) :
    (f.setMask i mask).connect start stop order =
      (f.connect start stop order).setMask i mask := by
  have hcontrols (j : ℕ) : ((f.setMask i mask).knot j).controlOut = (f.knot j).controlOut ∧
      ((f.setMask i mask).knot j).controlIn = (f.knot j).controlIn := by
    rw [setMask, knot_modifyKnot]
    split_ifs <;> exact ⟨rfl, rfl⟩
  unfold connect
  dsimp only
  rw [(hcontrols start).1, (hcontrols stop).2, ← modifyKnot_setMask _ _ _ _ fun _ => rfl,
    ← modifyKnot_setMask _ _ _ _ fun _ => rfl]
  rfl

end

variable {α : Type} [Scalar α] (f : Figure α)

theorem mask_modifyKnot (i j : ℕ) {change : Knot α → Knot α} (h : ∀ k, (change k).mask = k.mask) :
    ((f.modifyKnot i change).knot j).mask = (f.knot j).mask := by
  rw [knot_modifyKnot]
  split_ifs
  · exact h _
  · rfl

theorem mask_connect (start stop : ℕ) (order : CurveOrder) (j : ℕ) :
    ((f.connect start stop order).knot j).mask = (f.knot j).mask := by
  unfold connect
  dsimp only
  rw [mask_modifyKnot, mask_modifyKnot, knot_withSegments]
  · exact fun _ => rfl
  · exact fun _ => rfl

end Figure

namespace Builder

variable {α : Type} [Scalar α] {b : Builder α} {first last : ℕ}

def setMask (b : Builder α) (i : ℕ) (mask : Option HintMask) : Builder α :=
  { b with figure := b.figure.setMask i mask }

theorem curveTo_eq (hpath : b.path = some (first, last)) (c1 c2 p : Point α) :
    b.curveTo c1 c2 p =
      { b with
        figure := ((b.figure.modifyKnot last fun k =>
            { k with controlOut := if c1 == k.anchor then none else some c1 }).addKnot
          { anchor := p, controlIn := if c2 == p then none else some c2 }).connect last
            b.figure.knots.size .cubic
        path := some (first, b.figure.knots.size) } := by
  have hextend (f : Figure α) (k : Knot α) :=
    extend_eq (show ({ b with figure := f } : Builder α).path = some (first, last) from hpath) k
      .cubic
  unfold curveTo
  dsimp only
  rw [start_eq hpath, modifyCurrent_eq hpath, modifyKnot, hextend]
  simp only [Figure.size_modifyKnot]

theorem curveTo_setMask (hpath : b.path = some (first, last)) {i : ℕ}
    (hi : i < b.figure.knots.size) (mask : Option HintMask) (c1 c2 p : Point α) :
    (b.setMask i mask).curveTo c1 c2 p = (b.curveTo c1 c2 p).setMask i mask := by
  have hsize : (b.figure.setMask i mask).knots.size = b.figure.knots.size :=
    Figure.size_modifyKnot ..
  have hpath' : (b.setMask i mask).path = some (first, last) := hpath
  rw [curveTo_eq hpath', curveTo_eq hpath]
  unfold setMask
  dsimp only
  rw [hsize, Figure.modifyKnot_setMask _ _ _ _ fun _ => rfl,
    Figure.addKnot_setMask _ _ _ (by simpa using hi), Figure.connect_setMask]

theorem curveTo_spec (hpath : b.path = some (first, last)) (c1 c2 p : Point α) :
    (b.curveTo c1 c2 p).path = some (first, b.figure.knots.size) ∧
      (b.curveTo c1 c2 p).figure.knots.size = b.figure.knots.size + 1 ∧
      ∀ i, ((b.curveTo c1 c2 p).figure.knot i).mask =
        if i = b.figure.knots.size then none else (b.figure.knot i).mask := by
  rw [curveTo_eq hpath]
  refine ⟨rfl, by simp, fun i => ?_⟩
  rw [Figure.mask_connect, Figure.knot_addKnot, Figure.size_modifyKnot]
  by_cases hi : i = b.figure.knots.size
  · rw [if_pos hi, if_pos hi]
  · rw [if_neg hi, if_neg hi, Figure.mask_modifyKnot]
    exact fun _ => rfl

theorem mark_eq_setMask (hpath : b.path = some (first, last))
    (h : (b.figure.knot last).mask = none) (mask : Option HintMask) :
    b.mark mask = b.setMask last mask := by
  have hkeep : (b.figure.modifyKnot last fun k => { k with mask := mask.or k.mask }) =
      b.figure.setMask last mask := b.figure.modifyKnot_congr last (by rw [h, Option.or_none])
  rw [mark, modifyCurrent_eq hpath, modifyKnot, hkeep]
  rfl

/-- The last two knots are `i` and the one after it. The first of them has a mask that the second
one has in another builder, which is the same otherwise. -/
structure MovesMask (b b' : Builder α) (i : ℕ) (mask : Option HintMask) : Prop where
  size : b.figure.knots.size = i + 2
  before : (b.figure.knot i).mask = mask
  last : (b.figure.knot (i + 1)).mask = none
  eq : b' = (b.setMask i none).setMask (i + 1) mask

theorem MovesMask.figure_eq_iff {b b' : Builder α} {i : ℕ} {mask : Option HintMask}
    (h : b.MovesMask b' i mask) : b'.figure = b.figure ↔ mask = none := by
  have hfigure : b'.figure = (b.figure.setMask i none).setMask (i + 1) mask := by rw [h.eq]; rfl
  constructor
  · intro heq
    have hmask : (b'.figure.knot (i + 1)).mask = mask := by
      rw [hfigure, Figure.setMask, Figure.knot_modifyKnot, if_pos]
      rw [Figure.setMask, Figure.size_modifyKnot, h.size]
      omega
    rw [← hmask, heq]
    exact h.last
  · rintro rfl
    rw [hfigure, Figure.setMask_eq_self _ _ _ h.before, Figure.setMask_eq_self _ _ _ h.last]

/-- Two curves with a mask for the knot between them, and with the mask for the knot at their
end. -/
theorem movesMask_curves (hpath : b.path = some (first, last)) (mask : Option HintMask)
    (c1 c2 p c3 c4 q : Point α) :
    (((b.curveTo c1 c2 p).mark mask).curveTo c3 c4 q).MovesMask
      (((b.curveTo c1 c2 p).curveTo c3 c4 q).mark mask) b.figure.knots.size mask := by
  obtain ⟨hpath₁, hsize₁, hmask₁⟩ := curveTo_spec hpath c1 c2 p
  obtain ⟨hpath₂, hsize₂, hmask₂⟩ := curveTo_spec hpath₁ c3 c4 q
  generalize hN : b.figure.knots.size = N at *
  rw [hsize₁] at hpath₂ hmask₂ hsize₂
  have hlast := (hmask₂ (N + 1)).trans (if_pos rfl)
  have hbetween : ((((b.curveTo c1 c2 p).curveTo c3 c4 q).figure).knot N).mask = none := by
    rw [hmask₂, if_neg (by omega), hmask₁, if_pos rfl]
  rw [mark_eq_setMask hpath₁ ((hmask₁ N).trans (if_pos rfl)), curveTo_setMask hpath₁ (by omega),
    mark_eq_setMask hpath₂ hlast]
  generalize (b.curveTo c1 c2 p).curveTo c3 c4 q = drawn at *
  refine ⟨?_, ?_, ?_, ?_⟩
  · simpa [setMask, Figure.setMask] using hsize₂
  · simp [setMask, Figure.setMask, Figure.knot_modifyKnot, hsize₂]
  · simpa [setMask, Figure.setMask, Figure.knot_modifyKnot] using hlast
  · have hback : (drawn.setMask N mask).setMask N none = drawn := by
      unfold setMask
      dsimp only
      rw [Figure.setMask_setMask, Figure.setMask_eq_self _ _ _ hbetween]
    rw [hback]

end Builder

end Letterform
