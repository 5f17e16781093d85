import Letterform.Proofs.Charstring.Plain

/-!
# The contours of a Type 1 charstring

Whole coordinates within the limit are written as they are. The displacement from one to another
may be twice as large and comes back all the same, since operands of Type 1 have 32 bits. Every
contour is closed by an operator, which leaves the current point where it is.
-/

namespace Letterform

open LawfulScalar (Denotes)
open Scalar (Agree IsFixed)

variable {α : Type} [Scalar α] [LawfulScalar α]

-- ---------------------------------------------------------------------------
-- Integers
-- ---------------------------------------------------------------------------

namespace Scalar

def IsInteger (a : α) : Prop := ∃ n : ℤ, Denotes a n

theorem isInteger_of_beq {a : α} (h : (a == Scalar.ofInt (Scalar.toInt32 a)) = true) :
    IsInteger a := by
  have hmem : -0x80000000 ≤ Scalar.toInt32 a ∧ Scalar.toInt32 a ≤ 0x7fffffff :=
    LawfulScalar.truncate_mem (by norm_num)
  exact ⟨_, LawfulScalar.denotes_of_beq h (LawfulScalar.ofInt (by rw [abs_lt]; omega))⟩

theorem isInteger_zero : IsInteger (0 : α) := ⟨0, LawfulScalar.ofInt (by norm_num)⟩

/-- Two numbers are the same integer, below 32768 in magnitude. -/
def AgreeWhole (a b : α) : Prop :=
  ∃ n : ℤ, |n| < 2 ^ 15 ∧ IsFixed a (65536 * n) ∧ IsFixed b (65536 * n)

theorem AgreeWhole.left {a b : α} (h : AgreeWhole a b) : AgreeWhole a a := by
  obtain ⟨n, hn, ha, -⟩ := h
  exact ⟨n, hn, ha, ha⟩

theorem AgreeWhole.symm {a b : α} (h : AgreeWhole a b) : AgreeWhole b a := by
  obtain ⟨n, hn, ha, hb⟩ := h
  exact ⟨n, hn, hb, ha⟩

theorem AgreeWhole.agree {a b : α} (h : AgreeWhole a b) : Agree a b := by
  obtain ⟨n, hn, ha, hb⟩ := h
  have hunits : 65536 * n = 64 * (1024 * n) := by ring
  rw [hunits] at ha hb
  rw [abs_lt] at hn
  exact ⟨1024 * n, by rw [abs_lt]; omega, ha, hb⟩

theorem AgreeWhole.displacement {a b : α} (ha : AgreeWhole a a) (hb : AgreeWhole b b) :
    Agree (b - a) (Charstring.Operand.reread .type1 (b - a)) := by
  obtain ⟨m, hm, ha, -⟩ := ha
  obtain ⟨n, hn, hb, -⟩ := hb
  rw [abs_lt] at hm hn
  have hsub : IsFixed (b - a) (65536 * (n - m)) := by
    rw [mul_sub]
    exact hb.sub ha (by rw [abs_lt]; omega)
  have hreread := Charstring.Operand.isFixed_reread_whole hsub (by omega) (by omega)
  have hunits : 65536 * (n - m) = 64 * (1024 * (n - m)) := by ring
  rw [hunits] at hsub hreread
  exact ⟨1024 * (n - m), by rw [abs_lt]; omega, hsub, hreread⟩

end Scalar

def Point.IsInteger (p : Point α) : Prop := Scalar.IsInteger p.x ∧ Scalar.IsInteger p.y

def Knot.IsInteger (k : Knot α) : Prop := ∀ p ∈ k.points, p.IsInteger

structure Glyph.IsInteger (g : Glyph α) : Prop where
  bearing : Scalar.IsInteger g.bearing
  advanceWidth : Scalar.IsInteger g.advanceWidth
  knots : ∀ f ∈ g.figures, ∀ k ∈ f.knots, k.IsInteger
  stems : ∀ axis, ∀ s ∈ g.hints.onAxis axis, Scalar.IsInteger s.start ∧ Scalar.IsInteger s.width

structure Point.AgreeWhole (p q : Point α) : Prop where
  x : Scalar.AgreeWhole p.x q.x
  y : Scalar.AgreeWhole p.y q.y

namespace Point.AgreeWhole

variable {p q : Point α}

theorem left (h : p.AgreeWhole q) : p.AgreeWhole p := ⟨h.x.left, h.y.left⟩

theorem agree (h : p.AgreeWhole q) : p.Agree q := ⟨h.x.agree, h.y.agree⟩

end Point.AgreeWhole

namespace Charstring

theorem coordinate_integer {a b : Float} (ha : Scalar.IsInteger a)
    (h : coordinate .type1 a = .ok b) : Scalar.AgreeWhole b a := by
  obtain ⟨n, hn⟩ := ha
  have hfixed := Scalar.isFixed_whole.mpr hn
  obtain ⟨hb, hlow, hhigh⟩ := coordinate_whole hfixed h
  exact ⟨n, abs_lt.mpr ⟨hlow, hhigh⟩, hb, hfixed⟩

theorem roundedPoint_integer {p q : Point Float} (hp : p.IsInteger)
    (h : roundedPoint .type1 p = .ok q) : q.AgreeWhole p := by
  obtain ⟨x, hx, h⟩ := bind_ok.mp h
  obtain ⟨y, hy, h⟩ := bind_ok.mp h
  cases h
  exact ⟨coordinate_integer hp.1 hx, coordinate_integer hp.2 hy⟩

-- ---------------------------------------------------------------------------
-- Traces
-- ---------------------------------------------------------------------------

omit [LawfulScalar α] in
theorem Leg.draw_plain (b : Builder α) (l : Leg α) :
    l.draw (fun _ => none) b = match l.controls with
      | none => b.lineTo l.stop
      | some (c1, c2) => b.curveTo c1 c2 l.stop := by
  have hnone : (l.mask.bind fun _ => none) = (none : Option HintMask) := by
    cases l.mask <;> rfl
  rw [Leg.draw, hnone]
  rcases l.controls with _ | ⟨c1, c2⟩ <;> exact mark_none _

theorem legsFrom_cons_integer {start : Point Float} {s : Stroke Float}
    {strokes : List (Stroke Float)} {legs : List (Leg Float)}
    (h : legsFrom .type1 start (s :: strokes) = .ok legs) (hstart : start.AgreeWhole start)
    (hinteger : s.start.IsInteger ∧ s.stop.IsInteger) :
    ∃ leg rest, legs = leg :: rest ∧ leg.start = start ∧
      legsFrom .type1 leg.stop strokes = .ok rest ∧ leg.Kept (Operand.reread .type1) ∧
      leg.stop.AgreeWhole leg.stop ∧
      ∀ b b' : Builder Float, b.Agree True b' →
        (leg.draw (fun _ => none) b).Agree True (s.drawPlain b') := by
  obtain ⟨hfrom, hto⟩ := hinteger
  unfold Stroke.drawPlain
  obtain ⟨leg, rest, hleg, hrest, rfl⟩ := legsFrom_cons_ok.mp h
  cases hleg with
  | line hline hstop =>
    rw [hline]
    have hp := roundedPoint_integer (hto _ s.stop.anchor_mem_points) hstop
    refine ⟨_, rest, rfl, rfl, hrest, ⟨hstart.agree, hp.left.agree, ?_, .line ?_ ?_⟩, hp.left,
      fun b b' hb => ?_⟩
    · rintro _ _ ⟨⟩
    · exact hstart.x.displacement hp.left.x
    · exact hstart.y.displacement hp.left.y
    · rw [Leg.draw_plain]
      exact hb.lineTo hp.agree
  | curve hline hc1 hc2 hstop =>
    rw [hline]
    have h1 := roundedPoint_integer (hfrom _ s.start.leaving_mem_points) hc1
    have h2 := roundedPoint_integer (hto _ s.stop.arriving_mem_points) hc2
    have hp := roundedPoint_integer (hto _ s.stop.anchor_mem_points) hstop
    refine ⟨_, rest, rfl, rfl, hrest, ⟨hstart.agree, hp.left.agree, ?_, .curve ?_ ?_ ?_ ?_ ?_ ?_⟩,
      hp.left, fun b b' hb => ?_⟩
    · rintro _ _ ⟨⟩
      exact ⟨h1.left.agree, h2.left.agree⟩
    · exact hstart.x.displacement h1.left.x
    · exact hstart.y.displacement h1.left.y
    · exact h1.left.x.displacement h2.left.x
    · exact h1.left.y.displacement h2.left.y
    · exact h2.left.x.displacement hp.left.x
    · exact h2.left.y.displacement hp.left.y
    · rw [Leg.draw_plain]
      exact hb.curveTo h1.agree h2.agree hp.agree

theorem legsFrom_integer {start : Point Float} {strokes : List (Stroke Float)}
    {legs : List (Leg Float)} (h : legsFrom .type1 start strokes = .ok legs)
    (hstart : start.AgreeWhole start)
    (hinteger : ∀ s ∈ strokes, s.start.IsInteger ∧ s.stop.IsInteger) :
    Follow (Operand.reread .type1) start legs ∧
      (endOf start legs).AgreeWhole (endOf start legs) ∧
      ∀ b b' : Builder Float, b.Agree True b' →
        (legs.foldl (Leg.draw fun _ => none) b).Agree True (strokes.foldl Stroke.drawPlain b') := by
  induction strokes generalizing start legs with
  | nil =>
    cases h
    exact ⟨trivial, hstart, fun _ _ hb => hb⟩
  | cons s strokes ih =>
    obtain ⟨hs, hinteger⟩ := List.forall_mem_cons.mp hinteger
    obtain ⟨leg, rest, rfl, rfl, hrest, hkept, hstop, hdraw⟩ := legsFrom_cons_integer h hstart hs
    obtain ⟨hfollow, hend, hdraws⟩ := ih hrest hstop hinteger
    exact ⟨⟨rfl, hkept, hfollow⟩, hend, fun b b' hb => hdraws _ _ (hdraw b b' hb)⟩

/-- Draws a contour from its trace, without masks, and closes it. -/
def Trace.drawClosed (b : Builder α) (t : Trace α) : Builder α :=
  (t.legs.foldl (Leg.draw fun _ => none) (b.moveTo t.start)).close

/-- The traces of contours with integer points lead from one to the next and draw these contours. -/
theorem traces_integer {position : Point Float} {contours : List (Figure Float × Contour)}
    {ts : List (Trace Float)}
    (h : (contours.mapM fun (f, c) => Trace.ofContour .type1 f c) = .ok ts)
    (hposition : position.AgreeWhole position)
    (hinteger : ∀ f c, (f, c) ∈ contours → ∀ i, (f.knot i).IsInteger) :
    TracesFollow (Operand.reread .type1) position ts ∧
      ∀ b b' : Builder Float, b.Agree True b' →
        (ts.foldl Trace.drawClosed b).Agree True
          (contours.foldl (fun b (f, c) => f.drawClosed b c) b') := by
  induction contours generalizing position ts with
  | nil =>
    cases h
    exact ⟨trivial, fun _ _ hb => hb⟩
  | cons fc contours ih =>
    obtain ⟨f, c⟩ := fc
    obtain ⟨t, rest, ht, hrest, rfl⟩ := mapM_cons_ok.mp h
    obtain ⟨start, legs, hstart, hlegs, rfl⟩ := Trace.ofContour_ok.mp ht
    rw [Figure.strokes_eq] at hlegs
    have hknot := hinteger f c List.mem_cons_self
    have hp := roundedPoint_integer (hknot c.first _ (f.knot c.first).anchor_mem_points) hstart
    obtain ⟨hfollow, hend, hdraw⟩ := legsFrom_integer hlegs hp.left fun s hs => by
      obtain ⟨i, j, hi, hj⟩ := Figure.exists_knots hs
      exact ⟨hi ▸ hknot i, hj ▸ hknot j⟩
    have hstop := Trace.stop_eq { start, mask := (f.knot c.first).mask, legs }
    obtain ⟨hrest, hdraws⟩ := ih hrest (hstop ▸ hend) fun f' c' hmem =>
      hinteger f' c' (List.mem_cons_of_mem _ hmem)
    refine ⟨⟨⟨hp.left.agree, hposition.x.displacement hp.left.x,
      hposition.y.displacement hp.left.y, hfollow⟩, hrest⟩, fun b b' hb => ?_⟩
    exact hdraws _ _ ((hdraw _ _ (hb.moveTo hp.agree)).endContour true)

-- ---------------------------------------------------------------------------
-- Execution
-- ---------------------------------------------------------------------------

namespace Machine

variable {ctx : Context α} {m : Machine α} {b : Builder α} {p : Point α} (levels : ℕ)

theorem run_legs (hready : m.Ready ctx) (h : m.Drawn True b p) {legs : List (Leg α)}
    (hfollow : Follow (Operand.reread ctx.version) p legs) (tail : List UInt8) :
    ∃ m' : Machine α,
      m.run ctx levels ((legs.map fun leg => Instruction.ofCommand (.ofStep leg.step)).flatMap
          (·.toBytes ctx.version) ++ tail) = m'.run ctx levels tail ∧
      DrawsOnly m m' ∧
      m'.Drawn True (legs.foldl (Leg.draw fun _ => none) b) (endOf p legs) := by
  induction legs generalizing m b p with
  | nil => exact ⟨m, rfl, .refl m, h⟩
  | cons leg legs ih =>
    obtain ⟨rfl, hkept, hfollow⟩ := hfollow
    have hfits := Command.ofStep_fits ctx.version.le_stackLimit hkept.step []
    have hdraws := hfits.covers.draws
    have hcount : (Command.ofStep leg.step).groups.length = 1 :=
      le_antisymm hfits.covers.length_le hfits.pos
    rw [hcount] at hdraws
    obtain ⟨s, _, hs, hnil, hsteps⟩ := List.forall₂_cons_left_iff.mp hdraws
    obtain rfl := List.forall₂_nil_left_iff.mp hnil
    rw [← Command.operands] at hsteps
    have hmask (_ : True) : m.pendingMask = leg.mask.bind fun _ => none := by
      rw [h.pending]
      cases leg.mask <;> rfl
    have hdrawn := draw_agrees h.builder h.position hmask hkept hs
    have honly := drawsOnly_draw m s
    obtain ⟨m', hrun, honly', hdrawn'⟩ := ih (honly.ready hready) hdrawn hfollow
    refine ⟨m', ?_, honly.trans honly', hdrawn'⟩
    rw [List.map_cons, List.flatMap_cons, List.append_assoc, run_command levels hready
      (Command.isKnownTo_ofStep _ _) hfits.operands_le (by simp [hsteps]), hsteps]
    exact hrun

theorem run_closepath (hversion : ctx.version = .type1) (hready : m.Ready ctx)
    (tail : List UInt8) :
    m.run ctx levels
        ((Instruction.operation .closepath [] : Instruction α).toBytes ctx.version ++ tail) =
      run ctx levels tail { m with builder := m.builder.close } := by
  have hknown : Operator.closepath.isKnownTo ctx.version = true := by
    rw [hversion]
    rfl
  have hclosed : Ready ctx { m with builder := m.builder.close } :=
    ⟨hready.empty, hready.limit, hready.width, hready.flex⟩
  have hevaluate : (m.load []).evaluate ctx .closepath =
      .ok { m with builder := m.builder.close } :=
    congrArg Except.ok (hclosed.clear_withStack rfl)
  rw [run_operation ctx levels hknown rfl [] tail m (by rw [hready.size]; exact Nat.zero_le _),
    List.map_nil, hevaluate]
  rfl

theorem run_plainContours (hversion : ctx.version = .type1) (hready : m.Ready ctx)
    (h : m.Drawn True b p) (hp : p.Agree p) {ts : List (Trace α)}
    (hfollow : TracesFollow (Operand.reread ctx.version) p ts) (tail : List UInt8) :
    ∃ m' : Machine α,
      m.run ctx levels ((plainContours p ts).flatMap (·.toBytes ctx.version) ++ tail) =
        m'.run ctx levels tail ∧
      DrawsOnly m m' ∧ m'.builder.Agree True (ts.foldl Trace.drawClosed b) := by
  induction ts generalizing m b p with
  | nil => exact ⟨m, rfl, .refl m, h.builder⟩
  | cons t ts ih =>
    obtain ⟨⟨hstart, hx, hy, hlegs⟩, hts⟩ := hfollow
    have hstop : t.stop.Agree t.stop := t.stop_eq ▸ agree_endOf hlegs hstart
    let others : List UInt8 := (Instruction.operation .closepath [] : Instruction α).toBytes
      ctx.version ++ ((plainContours t.stop ts).flatMap (·.toBytes ctx.version) ++ tail)
    obtain ⟨dx, dy, hdx, hdy, hrun1⟩ := run_move levels hready hx hy
      ((t.legs.map fun leg => Instruction.ofCommand (.ofStep leg.step)).flatMap
        (·.toBytes ctx.version) ++ others)
    have honly1 := drawsOnly_moved m dx dy
    have hdisplaced : (displaced m.position dx dy).Agree t.start :=
      displaced_agrees h.position hp hstart hdx hdy
    have hmoved : (m.moved dx dy).builder.Agree True (b.moveTo t.start) := by
      have := h.builder.moveTo hdisplaced
      rwa [← mark_none (m.builder.moveTo _), ← h.pending] at this
    obtain ⟨m2, hrun2, honly2, hdrawn2⟩ := run_legs levels (honly1.ready hready)
      ⟨hmoved, hdisplaced, rfl⟩ hlegs others
    have hready2 := honly2.ready (honly1.ready hready)
    have honly3 : DrawsOnly m2 { m2 with builder := m2.builder.close } :=
      ⟨_, _, _, _, false, by rw [Bool.or_false]⟩
    have hclosed : Drawn True { m2 with builder := m2.builder.close } (t.drawClosed b) t.stop :=
      ⟨hdrawn2.builder.endContour true, t.stop_eq ▸ hdrawn2.position, hdrawn2.pending⟩
    obtain ⟨m4, hrun4, honly4, hbuilder4⟩ := ih (honly3.ready hready2) hclosed hstop hts
    refine ⟨m4, ?_, ((honly1.trans honly2).trans honly3).trans honly4, hbuilder4⟩
    rw [plainContours, List.cons_append, List.flatMap_cons, List.flatMap_append, List.flatMap_cons,
      List.append_assoc, List.append_assoc, List.append_assoc, hrun1, hrun2,
      run_closepath levels hversion hready2, hrun4]

omit [LawfulScalar α] in
theorem run_plainEnd (hversion : ctx.version = .type1) (hready : m.Ready ctx) :
    m.run ctx levels ((Instruction.operation .endchar [] : Instruction α).toBytes ctx.version) =
      .ok (m, .finished) := by
  have hend : m.endCharacter ctx = m := by
    unfold endCharacter
    rw [if_neg (by simp [hversion])]
    exact hready.clear_withStack rfl
  rw [Instruction.toBytes, List.flatMap_nil, List.nil_append, ← List.append_nil (Opcode.toBytes _),
    run_endchar ctx levels (by simp [hversion]), hend]

end Machine

end Charstring

end Letterform
