import Letterform.Proofs.Charstring.Execution
import Letterform.Proofs.Charstring.Trace

/-!
# Contours are drawn as they were traced

A machine that executes the instructions of some contours draws what a builder draws from the traces
of these contours. Apart from drawing it changes nothing.
-/

namespace Letterform.Charstring

open Scalar (Agree IsFixed units agree_of_units)

variable {α : Type} [Scalar α] {masked : Prop}

-- ---------------------------------------------------------------------------
-- Masks of knots
-- ---------------------------------------------------------------------------

theorem mark_agree [LawfulScalar α] {b b' : Builder α} {mask mask' : Option HintMask}
    (h : b.Agree masked b') (hmask : masked → mask = mask') :
    (b.mark mask).Agree masked (b'.mark mask') :=
  h.modifyCurrent fun _ _ hk => { hk with mask := fun hm => by simp only [hk.mask hm, hmask hm] }

omit [Scalar α] in
theorem mark_none (b : Builder α) : b.mark none = b := by
  obtain ⟨⟨knots, segments, contours⟩, order, path⟩ := b
  have h (i : ℕ) : knots.modify i (fun k => { k with mask := (none : Option HintMask).or k.mask }) =
      knots := by
    ext1
    · simp
    · simp only [Array.getElem_modify]
      split_ifs <;> rfl
  unfold Builder.mark Builder.modifyCurrent
  rcases path with _ | ⟨first, last⟩
  · rfl
  · simp only [Builder.current, Option.map_some, Builder.modifyKnot, Figure.modifyKnot, h]

theorem Version.le_stackLimit (version : Version) : 13 ≤ version.stackLimit := by
  cases version <;> decide

namespace Machine

omit [Scalar α] in
theorem attachMask_eq (m : Machine α) :
    m.attachMask = { m with
      builder := m.builder.mark m.pendingMask
      pendingMask := none
      replacingHints := false } := by
  unfold attachMask
  split
  · rename_i mask h
    rw [h]
    rfl
  · rename_i h
    rw [h, mark_none]

-- ---------------------------------------------------------------------------
-- Machines that only draw
-- ---------------------------------------------------------------------------

/-- One machine comes from the other by drawing, without a look at its operands. -/
def DrawsOnly (m m' : Machine α) : Prop :=
  ∃ builder position mask replacing taken,
    m' = { m with
      builder, position
      pendingMask := mask
      replacingHints := replacing
      widthTaken := m.widthTaken || taken }

/-- Between two instructions, when no width is expected any more. -/
structure Ready (ctx : Context α) (m : Machine α) : Prop where
  empty : m.stack.values = []
  limit : m.stack.limit = ctx.version.stackLimit
  width : m.widthTaken = true ∨ ctx.version ≠ .type2
  flex : m.flex = none

omit [Scalar α] in
theorem DrawsOnly.refl (m : Machine α) : DrawsOnly m m :=
  ⟨m.builder, m.position, m.pendingMask, m.replacingHints, false, by rw [Bool.or_false]⟩

omit [Scalar α] in
theorem DrawsOnly.trans {m m' m'' : Machine α} (h : DrawsOnly m m') (h' : DrawsOnly m' m'') :
    DrawsOnly m m'' := by
  obtain ⟨_, _, _, _, taken, rfl⟩ := h
  obtain ⟨builder, position, mask, replacing, taken', rfl⟩ := h'
  exact ⟨builder, position, mask, replacing, taken || taken', by rw [← Bool.or_assoc]⟩

omit [Scalar α] in
theorem DrawsOnly.ready {ctx : Context α} {m m' : Machine α} (h : DrawsOnly m m')
    (hready : m.Ready ctx) : m'.Ready ctx := by
  obtain ⟨_, _, _, _, taken, rfl⟩ := h
  exact ⟨hready.empty, hready.limit, hready.width.imp_left fun hw => by simp [hw], hready.flex⟩

omit [Scalar α] in
theorem DrawsOnly.glyph {m m' : Machine α} (h : DrawsOnly m m') : m'.glyph = m.glyph := by
  obtain ⟨_, _, _, _, _, rfl⟩ := h
  rfl

omit [Scalar α] in
theorem DrawsOnly.diagnostics {m m' : Machine α} (h : DrawsOnly m m') :
    m'.diagnostics = m.diagnostics := by
  obtain ⟨_, _, _, _, _, rfl⟩ := h
  rfl

omit [Scalar α] in
theorem DrawsOnly.declared {m m' : Machine α} (h : DrawsOnly m m') :
    m'.declared = m.declared := by
  obtain ⟨_, _, _, _, _, rfl⟩ := h
  rfl

omit [Scalar α] in
theorem Ready.size {ctx : Context α} {m : Machine α} (h : m.Ready ctx) : m.stack.size = 0 := by
  rw [Stack.size, h.empty, List.length_nil]

omit [Scalar α] in
theorem Ready.operands_load {ctx : Context α} {m : Machine α} (h : m.Ready ctx) (operands : List α) :
    (m.load operands).operands = operands := by
  rw [Machine.operands_load, Machine.operands, Stack.operands, h.empty]
  rfl

omit [Scalar α] in
theorem Ready.clear_withStack {ctx : Context α} {m : Machine α} (h : m.Ready ctx)
    {stack : Stack α} (hlimit : stack.limit = m.stack.limit) : (m.withStack stack).clear = m := by
  obtain ⟨⟨⟨values, limit⟩, storage, generator⟩, builder, glyph, diagnostics, position, taken⟩ := m
  obtain rfl : values = [] := h.empty
  obtain ⟨values, _⟩ := stack
  obtain rfl := hlimit
  rfl

def settled (m : Machine α) : Machine α := { m with widthTaken := true }

omit [Scalar α] in
theorem DrawsOnly.settled (m : Machine α) : DrawsOnly m m.settled :=
  ⟨_, _, _, _, true, by rw [Bool.or_true]; rfl⟩

omit [Scalar α] in
theorem settled_eq {m : Machine α} (h : m.widthTaken = true) : m.settled = m := by
  unfold settled
  rw [← h]

omit [Scalar α] in
theorem Ready.settled {ctx : Context α} {m : Machine α} (h : m.Ready ctx) :
    m.settled.Ready ctx := (DrawsOnly.settled m).ready h

theorem Ready.takeWidth_load {ctx : Context α} {m : Machine α} (h : m.Ready ctx)
    (operands : List α) (present : Bool) :
    (m.load operands).takeWidth ctx present = m.settled.load operands := by
  have hwidth := h.width
  unfold takeWidth
  obtain ⟨calculator, builder, glyph, diagnostics, position, taken⟩ := m
  cases taken with
  | true => rfl
  | false =>
    have hversion : ctx.version ≠ .type2 := hwidth.resolve_left Bool.false_ne_true
    simp only [load, withStack, hversion, false_and, if_false, Bool.false_eq_true]
    split <;> rfl

-- ---------------------------------------------------------------------------
-- Single steps
-- ---------------------------------------------------------------------------

theorem draw_line (m : Machine α) (dx dy : α) :
    m.draw (.line dx dy) = { m with
      position := displaced m.position dx dy
      builder := (m.builder.lineTo (displaced m.position dx dy)).mark m.pendingMask
      pendingMask := none
      replacingHints := false } := attachMask_eq _

theorem draw_curve (m : Machine α) (dx1 dy1 dx2 dy2 dx3 dy3 : α) :
    m.draw (.curve dx1 dy1 dx2 dy2 dx3 dy3) =
      let c1 := displaced m.position dx1 dy1
      let c2 := displaced c1 dx2 dy2
      let p := displaced c2 dx3 dy3
      { m with
        position := p
        builder := (m.builder.curveTo c1 c2 p).mark m.pendingMask
        pendingMask := none
        replacingHints := false } := attachMask_eq _

theorem moveTo_eq {m : Machine α} (hflex : m.flex = none) (dx dy : α) :
    m.moveTo dx dy = { m with
      position := displaced m.position dx dy
      builder := (m.builder.moveTo (displaced m.position dx dy)).mark m.pendingMask
      pendingMask := none
      replacingHints := false } := by
  unfold moveTo
  rw [hflex]
  exact attachMask_eq _

theorem drawsOnly_draw (m : Machine α) (s : PathStep α) : DrawsOnly m (m.draw s) := by
  cases s with
  | line dx dy => exact ⟨_, _, _, _, false, by rw [draw_line, Bool.or_false]⟩
  | curve dx1 dy1 dx2 dy2 dx3 dy3 => exact ⟨_, _, _, _, false, by rw [draw_curve, Bool.or_false]⟩

theorem drawsOnly_foldl (m : Machine α) (steps : List (PathStep α)) :
    DrawsOnly m (steps.foldl draw m) := by
  induction steps generalizing m with
  | nil => exact .refl m
  | cons s steps ih => exact (drawsOnly_draw m s).trans (ih (m.draw s))

theorem foldl_draw_withStack (m : Machine α) (stack : Stack α) (steps : List (PathStep α)) :
    steps.foldl draw (m.withStack stack) = (steps.foldl draw m).withStack stack := by
  induction steps generalizing m with
  | nil => rfl
  | cons s steps ih =>
    have hdraw : (m.withStack stack).draw s = (m.draw s).withStack stack := by
      cases s with
      | line dx dy => rw [draw_line, draw_line]; rfl
      | curve dx1 dy1 dx2 dy2 dx3 dy3 => rw [draw_curve, draw_curve]; rfl
    rw [List.foldl_cons, hdraw, ih]
    rfl

variable [LawfulScalar α] {r : α → α} {b : Builder α}

theorem agree_add_snap {p a q d : α} (hp : Agree p a) (ha : Agree a a) (hq : Agree q q)
    (hd : Agree (q - a) d) : Agree (p + Scalar.snap d) q := by
  have hpb := hp.bound
  have hqb := hq.bound
  have hab := ha.bound
  obtain ⟨hqa, hdu⟩ := units_sub hd hq ha
  have hpu := hp.units_eq
  have hdb := hd.bound
  have hsnap : IsFixed (Scalar.snap d) (64 * units d) :=
    hd.onGrid.2.isFixed.snap (abs_lt.mpr ⟨by omega, by omega⟩)
  obtain ⟨hsum, hu⟩ := hp.onGrid.1.add ⟨_, hsnap⟩ (by rw [hsnap.units]; omega)
    (by rw [hsnap.units]; omega)
  rw [hsnap.units] at hu
  exact agree_of_units hsum hq.onGrid.1 (by omega) (by omega) (by omega)

theorem displaced_agrees {p a q : Point α} {dx dy : α} (hp : p.Agree a) (ha : a.Agree a)
    (hq : q.Agree q) (hx : Agree (q.x - a.x) dx) (hy : Agree (q.y - a.y) dy) :
    (displaced p dx dy).Agree q :=
  ⟨agree_add_snap hp.x ha.x hq.x hx, agree_add_snap hp.y ha.y hq.y hy⟩

/-- A machine has drawn what a builder has and stands where it should, without a pending mask. -/
structure Drawn (masked : Prop) (m : Machine α) (b : Builder α) (p : Point α) : Prop where
  builder : m.builder.Agree masked b
  position : m.position.Agree p
  pending : m.pendingMask = none

theorem draw_agrees {m : Machine α} {l : Leg α} {s : PathStep α}
    {masks : HintMask → Option HintMask} (hbuilder : m.builder.Agree masked b)
    (hposition : m.position.Agree l.start) (hmask : masked → m.pendingMask = l.mask.bind masks)
    (hkept : l.Kept r) (hs : l.step.Agree s) :
    (m.draw s).Drawn masked (l.draw masks b) l.stop := by
  obtain ⟨start, controls, stop, mask⟩ := l
  obtain ⟨hstart, hstop, hcontrols, -⟩ := hkept
  rcases controls with _ | ⟨c1, c2⟩
  · rcases hs with ⟨hx, hy⟩ | _
    have hp := displaced_agrees hposition hstart hstop hx hy
    rw [draw_line]
    exact ⟨mark_agree (hbuilder.lineTo hp) hmask, hp, rfl⟩
  · rcases hs with _ | ⟨hx1, hy1, hx2, hy2, hx3, hy3⟩
    obtain ⟨hc1, hc2⟩ := hcontrols rfl
    have h1 := displaced_agrees hposition hstart hc1 hx1 hy1
    have h2 := displaced_agrees h1 hc1 hc2 hx2 hy2
    have hp := displaced_agrees h2 hc2 hstop hx3 hy3
    rw [draw_curve]
    exact ⟨mark_agree (hbuilder.curveTo h1 h2 hp) hmask, hp, rfl⟩

theorem foldl_draw_agrees {m : Machine α} {p : Point α} {legs : List (Leg α)}
    {steps : List (PathStep α)} {masks : HintMask → Option HintMask} (h : m.Drawn masked b p)
    (hfollow : Follow r p legs) (hsteps : List.Forall₂ PathStep.Agree (legs.map Leg.step) steps)
    (hmasks : masked → ∀ l ∈ legs, l.mask.bind masks = none) :
    (steps.foldl draw m).Drawn masked (legs.foldl (Leg.draw masks) b) (endOf p legs) := by
  induction legs generalizing m b p steps with
  | nil =>
    obtain rfl := List.forall₂_nil_left_iff.mp hsteps
    exact h
  | cons l legs ih =>
    obtain ⟨s, rest, hs, hrest, rfl⟩ := List.forall₂_cons_left_iff.mp hsteps
    obtain ⟨rfl, hkept, hfollow⟩ := hfollow
    have hmask (hm : masked) : m.pendingMask = l.mask.bind masks := by
      rw [h.pending, hmasks hm l List.mem_cons_self]
    have hdrawn := draw_agrees h.builder h.position hmask hkept hs
    rw [List.foldl_cons, List.foldl_cons]
    exact ih hdrawn hfollow hrest fun hm l' hl' => hmasks hm l' (List.mem_cons_of_mem l hl')

theorem run_agrees {m : Machine α} {p : Point α} {leg : Leg α} {legs : List (Leg α)}
    {steps : List (PathStep α)} {masks : HintMask → Option HintMask}
    (hbuilder : m.builder.Agree masked b) (hposition : m.position.Agree p)
    (hmask : masked → m.pendingMask = leg.mask.bind masks) (hfollow : Follow r p (leg :: legs))
    (hsteps : List.Forall₂ PathStep.Agree ((leg :: legs).map Leg.step) steps)
    (hmasks : masked → ∀ l ∈ legs, l.mask.bind masks = none) :
    (steps.foldl draw m).Drawn masked ((leg :: legs).foldl (Leg.draw masks) b)
      (endOf p (leg :: legs)) := by
  obtain ⟨s, rest, hs, hrest, rfl⟩ := List.forall₂_cons_left_iff.mp hsteps
  obtain ⟨rfl, hkept, hfollow⟩ := hfollow
  have hdrawn := draw_agrees hbuilder hposition hmask hkept hs
  rw [List.foldl_cons, List.foldl_cons]
  exact foldl_draw_agrees hdrawn hfollow hrest hmasks

end Machine

end Letterform.Charstring
