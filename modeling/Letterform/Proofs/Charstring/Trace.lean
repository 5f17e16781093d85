import Letterform.Proofs.Charstring.Flex
import Letterform.Proofs.Charstring.Operand
import Letterform.Proofs.Except
import Letterform.Proofs.Outline.Snapped

/-!
# Coordinates and displacements that are written

A coordinate that passes the check of its magnitude and lies near another one is a multiple of
1/1024 below 32768, and so is the displacement between the two. Such displacements come back from
their operands.
-/

namespace Letterform.Charstring

open Scalar (IsFixed Agree OnGrid units)

variable {α : Type} [Scalar α] [LawfulScalar α]

-- ---------------------------------------------------------------------------
-- Coordinates
-- ---------------------------------------------------------------------------

omit [LawfulScalar α] in
theorem coordinate_ok {version : Version} (hversion : version ≠ .type1) {a b : α}
    (h : coordinate version a = .ok b) :
    b = Scalar.snap a ∧ ¬ coordinateLimit < Scalar.abs (Scalar.snap a) := by
  unfold coordinate at h
  rw [if_neg hversion] at h
  dsimp only at h
  split_ifs at h with hlimit
  cases h
  exact ⟨rfl, hlimit⟩

theorem isFixed_coordinateLimit : IsFixed (coordinateLimit : α) (65536 * 32767) :=
  Scalar.isFixed_ofInt (by norm_num)

theorem isFixed_operandLimit : IsFixed (32768 : α) (65536 * 32768) :=
  Scalar.isFixed_ofInt (by norm_num)

theorem agree_snap {a : α} (ha : (Scalar.snap a == Scalar.snap a) = true)
    (h : ¬ coordinateLimit < Scalar.abs (Scalar.snap a)) :
    Agree (Scalar.snap a) (Scalar.snap a) := by
  have hlimit := isFixed_coordinateLimit (α := α)
  obtain ⟨k, hk⟩ := Scalar.exists_grid_of_snap ha hlimit h
  have hle : ¬ 65536 * 32767 < |64 * k| := fun hlt => h ((hlimit.lt_iff hk.abs).mpr hlt)
  rw [abs_mul, abs_of_pos (show (0 : ℤ) < 64 by norm_num)] at hle
  exact ⟨k, by omega, hk, hk⟩

theorem beq_self_of_abs_sub_lt {a b c : α} (h : Scalar.abs (a - b) < c) : (a == a) = true := by
  unfold Scalar.abs at h
  split_ifs at h with hle
  · exact LawfulScalar.beq_self_of_sub (LawfulScalar.beq_self_of_le hle)
  · exact LawfulScalar.beq_self_of_sub (LawfulScalar.beq_self_of_lt h)

/-- A displacement below 32768 comes back. -/
theorem agree_reread {version : Version} (hversion : version ≠ .type1) {a : α} (ha : OnGrid a)
    (h : Scalar.abs a < 32768) :
    Agree a (Operand.reread version a) := by
  have hlt := (ha.abs.lt_iff isFixed_operandLimit).mp h
  have hunits : |units a| < 2 ^ 25 := by omega
  obtain ⟨hlow, hhigh⟩ := abs_lt.mp hunits
  exact ⟨units a, by omega, ha.isFixed, Operand.isFixed_reread hversion ha.isFixed (by omega) (by omega)⟩

omit [LawfulScalar α] in
theorem roundedPoint_ok {version : Version} (hversion : version ≠ .type1) {p q : Point α}
    (h : roundedPoint version p = .ok q) :
    q = p.map Scalar.snap ∧ ¬ coordinateLimit < Scalar.abs (Scalar.snap p.x) ∧
      ¬ coordinateLimit < Scalar.abs (Scalar.snap p.y) := by
  obtain ⟨x, hx, h⟩ := bind_ok.mp h
  obtain ⟨y, hy, h⟩ := bind_ok.mp h
  cases h
  obtain ⟨rfl, hxl⟩ := coordinate_ok hversion hx
  obtain ⟨rfl, hyl⟩ := coordinate_ok hversion hy
  exact ⟨rfl, hxl, hyl⟩

theorem agree_of_isNear {version : Version} (hversion : version ≠ .type1) {p q before : Point α}
    (h : roundedPoint version p = .ok q) (hnear : before.IsNear q) : q.Agree q := by
  obtain ⟨rfl, hx, hy⟩ := roundedPoint_ok hversion h
  exact ⟨agree_snap (beq_self_of_abs_sub_lt hnear.1) hx, agree_snap (beq_self_of_abs_sub_lt hnear.2) hy⟩

theorem agree_displacement {version : Version} (hversion : version ≠ .type1) {a b : α}
    (ha : Agree a a) (hb : Agree b b) (h : Scalar.abs (b - a) < 32768) :
    Agree (b - a) (Operand.reread version (b - a)) := by
  have ba := ha.bound
  have bb := hb.bound
  obtain ⟨hgrid, -⟩ := hb.onGrid.1.sub ha.onGrid.1 (by omega) (by omega)
  exact agree_reread hversion hgrid h

-- ---------------------------------------------------------------------------
-- Legs
-- ---------------------------------------------------------------------------

def Leg.points (l : Leg α) : List (Point α) :=
  match l.controls with
  | none => [l.stop]
  | some (c1, c2) => [c1, c2, l.stop]

def Leg.ofStroke (start : Point α) (s : Stroke α) : Leg α where
  start
  controls :=
    if s.isLine then none
    else some (s.start.leaving.map Scalar.snap, s.stop.arriving.map Scalar.snap)
  stop := s.stop.anchor.map Scalar.snap
  mask := if s.isClosing then none else s.stop.mask

/-- A stroke in rounded coordinates, from a point that has been rounded already. -/
inductive IsRounded (version : Version) (start : Point α) (s : Stroke α) : Leg α → Prop
  | line {stop : Point α} (hline : s.isLine = true)
      (hstop : roundedPoint version s.stop.anchor = .ok stop) :
      IsRounded version start s
        { start, controls := none, stop, mask := if s.isClosing then none else s.stop.mask }
  | curve {c1 c2 stop : Point α} (hline : s.isLine = false)
      (hc1 : roundedPoint version s.start.leaving = .ok c1)
      (hc2 : roundedPoint version s.stop.arriving = .ok c2)
      (hstop : roundedPoint version s.stop.anchor = .ok stop) :
      IsRounded version start s
        { start, controls := some (c1, c2), stop
          mask := if s.isClosing then none else s.stop.mask }

omit [LawfulScalar α] in
theorem legsFrom_cons_ok {version : Version} {start : Point α} {s : Stroke α}
    {strokes : List (Stroke α)} {legs : List (Leg α)} :
    legsFrom version start (s :: strokes) = .ok legs ↔
      ∃ leg rest, IsRounded version start s leg ∧
        legsFrom version leg.stop strokes = .ok rest ∧ legs = leg :: rest := by
  constructor
  · intro h
    cases hline : s.isLine with
    | true =>
      simp only [legsFrom, hline, if_true, pure_bind, bind_ok, pure_ok] at h
      obtain ⟨stop, hstop, rest, hrest, rfl⟩ := h
      exact ⟨_, rest, .line hline hstop, hrest, rfl⟩
    | false =>
      simp only [legsFrom, hline, Bool.false_eq_true, if_false, pure_bind, bind_ok, pure_ok] at h
      obtain ⟨stop, hstop, c1, hc1, c2, hc2, rest, hrest, rfl⟩ := h
      exact ⟨_, rest, .curve hline hc1 hc2 hstop, hrest, rfl⟩
  · rintro ⟨leg, rest, hleg, hrest, rfl⟩
    cases hleg with
    | line hline hstop =>
      simp only [legsFrom, hline, if_true, pure_bind, bind_ok, pure_ok]
      exact ⟨_, hstop, rest, hrest, rfl⟩
    | curve hline hc1 hc2 hstop =>
      simp only [legsFrom, hline, Bool.false_eq_true, if_false, pure_bind, bind_ok, pure_ok]
      exact ⟨_, hstop, _, hc1, _, hc2, rest, hrest, rfl⟩

theorem legsFrom_cons {version : Version} (hversion : version ≠ .type1) {start : Point α}
    {s : Stroke α} {strokes : List (Stroke α)} {legs : List (Leg α)}
    (h : legsFrom version start (s :: strokes) = .ok legs) (hstart : start.Agree start)
    (hnear : (start :: s.snappedPoints).IsChain Point.IsNear) :
    ∃ rest, legs = Leg.ofStroke start s :: rest ∧
      legsFrom version (Leg.ofStroke start s).stop strokes = .ok rest ∧
      (Leg.ofStroke start s).Kept (Operand.reread version) := by
  unfold Leg.ofStroke
  unfold Stroke.snappedPoints at hnear
  obtain ⟨leg, rest, hleg, hrest, rfl⟩ := legsFrom_cons_ok.mp h
  cases hleg with
  | line hline hstop =>
    rw [hline]
    rw [hline, if_pos rfl, List.isChain_pair] at hnear
    have hagree := agree_of_isNear hversion hstop ((roundedPoint_ok hversion hstop).1 ▸ hnear)
    obtain ⟨rfl, -⟩ := roundedPoint_ok hversion hstop
    refine ⟨rest, rfl, hrest, hstart, hagree, nofun, .line ?_ ?_⟩
    · exact agree_displacement hversion hstart.x hagree.x hnear.1
    · exact agree_displacement hversion hstart.y hagree.y hnear.2
  | curve hline hc1 hc2 hstop =>
    rw [hline]
    rw [hline, if_neg Bool.false_ne_true, List.isChain_cons_cons, List.isChain_cons_cons,
      List.isChain_pair] at hnear
    obtain ⟨hnear1, hnear2, hnear3⟩ := hnear
    have ha1 := agree_of_isNear hversion hc1 ((roundedPoint_ok hversion hc1).1 ▸ hnear1)
    have ha2 := agree_of_isNear hversion hc2 ((roundedPoint_ok hversion hc2).1 ▸ hnear2)
    have ha3 := agree_of_isNear hversion hstop ((roundedPoint_ok hversion hstop).1 ▸ hnear3)
    obtain ⟨rfl, -⟩ := roundedPoint_ok hversion hc1
    obtain ⟨rfl, -⟩ := roundedPoint_ok hversion hc2
    obtain ⟨rfl, -⟩ := roundedPoint_ok hversion hstop
    refine ⟨rest, rfl, hrest, hstart, ha3, ?_, .curve ?_ ?_ ?_ ?_ ?_ ?_⟩
    · rintro _ _ ⟨⟩
      exact ⟨ha1, ha2⟩
    · exact agree_displacement hversion hstart.x ha1.x hnear1.1
    · exact agree_displacement hversion hstart.y ha1.y hnear1.2
    · exact agree_displacement hversion ha1.x ha2.x hnear2.1
    · exact agree_displacement hversion ha1.y ha2.y hnear2.2
    · exact agree_displacement hversion ha2.x ha3.x hnear3.1
    · exact agree_displacement hversion ha2.y ha3.y hnear3.2

/-- Legs from a point on, each of them on the grid with displacements that come back. -/
def Follow (r : α → α) (start : Point α) : List (Leg α) → Prop
  | [] => True
  | l :: legs => l.start = start ∧ l.Kept r ∧ Follow r l.stop legs

def endOf (start : Point α) (legs : List (Leg α)) : Point α := legs.foldl (fun _ l => l.stop) start

omit [Scalar α] [LawfulScalar α] in
theorem endOf_append (start : Point α) (legs legs' : List (Leg α)) :
    endOf start (legs ++ legs') = endOf (endOf start legs) legs' := List.foldl_append

theorem follow_append {r : α → α} {start : Point α} {legs legs' : List (Leg α)} :
    Follow r start (legs ++ legs') ↔ Follow r start legs ∧ Follow r (endOf start legs) legs' := by
  induction legs generalizing start with
  | nil => exact (and_iff_right trivial).symm
  | cons l legs ih =>
    rw [List.cons_append, Follow, Follow, ih, and_assoc, and_assoc]
    rfl

theorem Follow.kept {r : α → α} {start : Point α} {legs : List (Leg α)} (h : Follow r start legs) :
    ∀ l ∈ legs, l.Kept r := by
  induction legs generalizing start with
  | nil => exact nofun
  | cons l legs ih => exact List.forall_mem_cons.mpr ⟨h.2.1, ih h.2.2⟩

theorem Follow.linked {r : α → α} {start : Point α} {legs : List (Leg α)}
    (h : Follow r start legs) : Linked legs := by
  induction legs generalizing start with
  | nil => exact .nil
  | cons l legs ih =>
    cases legs with
    | nil => exact .singleton l
    | cons l' legs => exact .cons_cons h.2.2.1 (ih h.2.2)

def Leg.draw (masks : HintMask → Option HintMask) (b : Builder α) (l : Leg α) : Builder α :=
  (match l.controls with
    | none => b.lineTo l.stop
    | some (c1, c2) => b.curveTo c1 c2 l.stop).mark (l.mask.bind masks)

omit [LawfulScalar α] in
theorem draw_ofStroke (masks : HintMask → Option HintMask) (b : Builder α) (start : Point α)
    (s : Stroke α) : (Leg.ofStroke start s).draw masks b = s.drawSnapped masks b := by
  unfold Leg.draw Leg.ofStroke Stroke.drawSnapped
  cases s.isLine <;> cases s.isClosing <;> rfl

omit [LawfulScalar α] in
theorem isChain_snappedPoints {start : Point α} {s : Stroke α} {tail : List (Point α)}
    (h : (start :: (s.snappedPoints ++ tail)).IsChain Point.IsNear) :
    (start :: s.snappedPoints).IsChain Point.IsNear ∧
      (s.stop.anchor.map Scalar.snap :: tail).IsChain Point.IsNear := by
  unfold Stroke.snappedPoints at *
  cases hline : s.isLine <;> simp_all [List.isChain_cons_cons]

theorem legsFrom_ok {version : Version} (hversion : version ≠ .type1) {start : Point α}
    {strokes : List (Stroke α)} {legs : List (Leg α)} {tail : List (Point α)}
    (h : legsFrom version start strokes = .ok legs) (hstart : start.Agree start)
    (hnear : (start :: (strokes.flatMap Stroke.snappedPoints ++ tail)).IsChain Point.IsNear) :
    Follow (Operand.reread version) start legs ∧
      (endOf start legs :: tail).IsChain Point.IsNear ∧
      ∀ masks b, legs.foldl (Leg.draw masks) b = strokes.foldl (Stroke.drawSnapped masks) b := by
  induction strokes generalizing start legs with
  | nil =>
    cases h
    exact ⟨trivial, hnear, fun _ _ => rfl⟩
  | cons s strokes ih =>
    rw [List.flatMap_cons, List.append_assoc] at hnear
    obtain ⟨hfirst, hrest⟩ := isChain_snappedPoints hnear
    obtain ⟨rest, rfl, hlegs, hkept⟩ := legsFrom_cons hversion h hstart hfirst
    obtain ⟨hfollow, hchain, hdraw⟩ := ih hlegs hkept.stop hrest
    refine ⟨⟨rfl, hkept, hfollow⟩, hchain, fun masks b => ?_⟩
    rw [List.foldl_cons, List.foldl_cons, draw_ofStroke, hdraw]

-- ---------------------------------------------------------------------------
-- Contours
-- ---------------------------------------------------------------------------

namespace Trace

def draw (masks : HintMask → Option HintMask) (b : Builder α) (t : Trace α) : Builder α :=
  t.legs.foldl (Leg.draw masks) ((b.moveTo t.start).mark (t.mask.bind masks))

omit [LawfulScalar α] in
theorem ofContour_ok {version : Version} {f : Figure α} {c : Contour} {t : Trace α} :
    ofContour version f c = .ok t ↔
      ∃ start legs, roundedPoint version (f.knot c.first).anchor = .ok start ∧
        legsFrom version start (f.strokes c) = .ok legs ∧
        t = { start, mask := (f.knot c.first).mask, legs } := by
  simp only [ofContour, bind_ok, pure_ok]
  constructor
  · rintro ⟨start, hstart, legs, hlegs, rfl⟩
    exact ⟨start, legs, hstart, hlegs, rfl⟩
  · rintro ⟨start, legs, hstart, hlegs, rfl⟩
    exact ⟨start, hstart, legs, hlegs, rfl⟩

omit [Scalar α] [LawfulScalar α] in
theorem stop_eq (t : Trace α) : t.stop = endOf t.start t.legs := by
  unfold stop endOf
  rcases List.eq_nil_or_concat t.legs with h | ⟨legs, leg, h⟩
  · rw [h]
    rfl
  · rw [h]
    simp

/-- A contour that begins at some displacement from a point. -/
structure Kept (r : α → α) (before : Point α) (t : Trace α) : Prop where
  start : t.start.Agree t.start
  x : Agree (t.start.x - before.x) (r (t.start.x - before.x))
  y : Agree (t.start.y - before.y) (r (t.start.y - before.y))
  legs : Follow r t.start t.legs

end Trace

def TracesFollow (r : α → α) (position : Point α) : List (Trace α) → Prop
  | [] => True
  | t :: traces => t.Kept r position ∧ TracesFollow r t.stop traces

theorem agree_endOf {r : α → α} {start : Point α} {legs : List (Leg α)} (h : Follow r start legs)
    (hstart : start.Agree start) : (endOf start legs).Agree (endOf start legs) := by
  induction legs generalizing start with
  | nil => exact hstart
  | cons l legs ih => exact ih h.2.2 h.2.1.stop

theorem traces_follow {version : Version} (hversion : version ≠ .type1) {position : Point α}
    {contours : List (Figure α × Contour)} {traces : List (Trace α)}
    (h : (contours.mapM fun (f, c) => Trace.ofContour version f c) = .ok traces)
    (hposition : position.Agree position)
    (hnear : (position :: contours.flatMap fun (f, c) => (f.knot c.first).anchor.map Scalar.snap ::
      (f.drawnStrokes c).flatMap Stroke.snappedPoints).IsChain Point.IsNear) :
    TracesFollow (Operand.reread version) position traces ∧
      ∀ masks b, traces.foldl (Trace.draw masks) b =
        contours.foldl (fun b (f, c) => Figure.drawSnapped masks f b c) b := by
  induction contours generalizing position traces with
  | nil =>
    cases h
    exact ⟨trivial, fun _ _ => rfl⟩
  | cons fc contours ih =>
    obtain ⟨f, c⟩ := fc
    obtain ⟨t, rest, ht, hrest, rfl⟩ := mapM_cons_ok.mp h
    obtain ⟨start, legs, hstart, hlegs, rfl⟩ := Trace.ofContour_ok.mp ht
    rw [Figure.strokes_eq] at hlegs
    rw [List.flatMap_cons, List.cons_append, List.isChain_cons_cons] at hnear
    obtain ⟨hnear, hchain⟩ := hnear
    have hagree := agree_of_isNear hversion hstart ((roundedPoint_ok hversion hstart).1 ▸ hnear)
    obtain ⟨rfl, -⟩ := roundedPoint_ok hversion hstart
    obtain ⟨hfollow, hchain, hdraw⟩ := legsFrom_ok hversion hlegs hagree hchain
    have hx := agree_displacement hversion hposition.x hagree.x hnear.1
    have hy := agree_displacement hversion hposition.y hagree.y hnear.2
    have hstop := Trace.stop_eq
      { start := (f.knot c.first).anchor.map Scalar.snap, mask := (f.knot c.first).mask, legs }
    rw [← hstop] at hchain
    obtain ⟨hrest, hdraws⟩ := ih hrest (hstop ▸ agree_endOf hfollow hagree) hchain
    refine ⟨⟨⟨hagree, hx, hy, hfollow⟩, hrest⟩, fun masks b => ?_⟩
    rw [List.foldl_cons, hdraws]
    unfold Trace.draw
    rw [hdraw]
    rfl

end Letterform.Charstring
