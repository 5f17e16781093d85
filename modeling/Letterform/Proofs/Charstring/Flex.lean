import Letterform.Proofs.Charstring.Command
import Letterform.Proofs.Outline.Agreement

/-!
# Flexes draw the two curves they stand for

The operators for flexes leave out displacements that the other ones determine. Here the points of
the legs count and not only their displacements: a flex is chosen by comparing points, and the
interpreter finds the missing displacements by adding up those that it has.
-/

namespace Letterform.Charstring

open Scalar (Agree OnGrid units agree_of_units)

variable {α : Type} [Scalar α] [LawfulScalar α]

/-- A leg on the grid whose displacements come back as they are. -/
structure Leg.Kept (r : α → α) (l : Leg α) : Prop where
  start : l.start.Agree l.start
  stop : l.stop.Agree l.stop
  controls {c1 c2 : Point α} (h : l.controls = some (c1, c2)) : c1.Agree c1 ∧ c2.Agree c2
  step : l.step.Kept r

def Linked (legs : List (Leg α)) : Prop := legs.IsChain fun l l' => l'.start = l.stop

theorem units_sub {a b d : α} (h : Agree (a - b) d) (ha : Agree a a) (hb : Agree b b) :
    units (a - b) = units a - units b ∧ units d = units a - units b := by
  obtain ⟨-, hsub⟩ := ha.onGrid.1.sub hb.onGrid.1
    (by have := ha.bound; have := hb.bound; omega) (by have := ha.bound; have := hb.bound; omega)
  exact ⟨hsub, h.units_eq ▸ hsub⟩

theorem units_eq_of_beq {a b : α} (h : (a == b) = true) (ha : Agree a a) (hb : Agree b b) :
    units a = units b := (ha.onGrid.1.beq_iff hb.onGrid.1).mp h

theorem agree_sub_zero {a b d : α} (h : Agree (a - b) d) (ha : Agree a a) (hb : Agree b b)
    (heq : units a = units b) : Agree (a - b) 0 := by
  obtain ⟨hsub, -⟩ := units_sub h ha hb
  refine h.to_zero ((h.onGrid.1.beq_iff Scalar.onGrid_zero).mpr ?_)
  rw [hsub, Scalar.units_zero]
  omega

theorem agree_neg {a b d : α} (h : Agree a b) (hd : OnGrid d) (hu : units a = -units d) :
    Agree a (-d) := by
  have := h.bound
  exact agree_of_units h.onGrid.1 hd.neg.1 (by rw [hu, hd.neg.2]) this.1 this.2

namespace Command

variable {r : α → α}

theorem two_curves_fit {limit : ℕ} {s1 s2 t1 t2 : PathStep α} {rest : List (PathStep α)}
    {op : PathOperator} {g1 g2 : List α} (hsize : (g1 ++ g2).length ≤ limit)
    (hsteps : op.steps ((g1 ++ g2).map r) = [t1, t2]) (h1 : s1.Agree t1) (h2 : s2.Agree t2) :
    (⟨op, [g1, g2]⟩ : Command α).Fits r limit (s1 :: s2 :: rest) := by
  refine ⟨Nat.succ_pos _, by simpa [operands] using hsize, ⟨Nat.succ_le_succ (Nat.succ_le_succ
    (Nat.zero_le _)), ?_⟩⟩
  rw [List.flatten_cons, List.flatten_singleton, hsteps]
  exact .cons h1 (.cons h2 .nil)

theorem sum_five {d1 d2 d3 d4 d5 e1 e2 e3 e4 e5 : α} (h1 : Agree e1 d1) (h2 : Agree e2 d2)
    (h3 : Agree e3 d3) (h4 : Agree e4 d4) (h5 : Agree e5 d5) :
    OnGrid (d1 + d2 + d3 + d4 + d5) ∧
      units (d1 + d2 + d3 + d4 + d5) = units e1 + units e2 + units e3 + units e4 + units e5 := by
  have b1 := h1.bound
  have b2 := h2.bound
  have b3 := h3.bound
  have b4 := h4.bound
  have b5 := h5.bound
  have u1 := h1.units_eq
  have u2 := h2.units_eq
  have u3 := h3.units_eq
  have u4 := h4.units_eq
  have u5 := h5.units_eq
  obtain ⟨g12, u12⟩ := h1.onGrid.2.add h2.onGrid.2 (by omega) (by omega)
  obtain ⟨g123, u123⟩ := g12.add h3.onGrid.2 (by omega) (by omega)
  obtain ⟨g1234, u1234⟩ := g123.add h4.onGrid.2 (by omega) (by omega)
  obtain ⟨g12345, u12345⟩ := g1234.add h5.onGrid.2 (by omega) (by omega)
  exact ⟨g12345, by omega⟩

/-- Two curves on the grid that follow each other and whose displacements come back. -/
structure KeptPair (r : α → α) (s c1 c2 p c3 c4 e : Point α) : Prop where
  start : s.Agree s
  control1 : c1.Agree c1
  control2 : c2.Agree c2
  joint : p.Agree p
  control3 : c3.Agree c3
  control4 : c4.Agree c4
  stop : e.Agree e
  first : (PathStep.curve (c1.x - s.x) (c1.y - s.y) (c2.x - c1.x) (c2.y - c1.y) (p.x - c2.x)
    (p.y - c2.y)).Kept r
  second : (PathStep.curve (c3.x - p.x) (c3.y - p.y) (c4.x - c3.x) (c4.y - c3.y) (e.x - c4.x)
    (e.y - c4.y)).Kept r

section Pair

variable {s c1 c2 p c3 c4 e : Point α} {limit : ℕ} (hlimit : 13 ≤ limit)
  (h : KeptPair r s c1 c2 p c3 c4 e) (rest : List (PathStep α))
include hlimit h

theorem hflex_fits (hse : (s.y == e.y) = true) (h2 : (c2.y == p.y) = true)
    (h3 : (c3.y == p.y) = true) (h1 : (c1.y == s.y) = true) (h4 : (c4.y == s.y) = true) :
    (⟨.hflex, [[(c1 - s).x, (c2 - c1).x, (c2 - c1).y, (p - c2).x],
      [(c3 - p).x, (c4 - c3).x, (e - c4).x]]⟩ : Command α).Fits r limit
      (.curve (c1.x - s.x) (c1.y - s.y) (c2.x - c1.x) (c2.y - c1.y) (p.x - c2.x) (p.y - c2.y) ::
        .curve (c3.x - p.x) (c3.y - p.y) (c4.x - c3.x) (c4.y - c3.y) (e.x - c4.x) (e.y - c4.y) ::
          rest) := by
  obtain _ | ⟨h1x, h1y, h2x, h2y, h3x, h3y⟩ := h.first
  obtain _ | ⟨h4x, h4y, h5x, h5y, h6x, h6y⟩ := h.second
  have ey := units_eq_of_beq hse h.start.y h.stop.y
  have e2 := units_eq_of_beq h2 h.control2.y h.joint.y
  have e3 := units_eq_of_beq h3 h.control3.y h.joint.y
  have e1 := units_eq_of_beq h1 h.control1.y h.start.y
  have e4 := units_eq_of_beq h4 h.control4.y h.start.y
  have u2 := (units_sub h2y h.control2.y h.control1.y).2
  have u5 := (units_sub h5y h.control4.y h.control3.y).1
  have hback : Agree (c4.y - c3.y) (-r (c2.y - c1.y)) := agree_neg h5y h2y.onGrid.2 (by omega)
  exact two_curves_fit (by simp; omega) rfl
    (.curve h1x (agree_sub_zero h1y h.control1.y h.start.y e1) h2x h2y h3x
      (agree_sub_zero h3y h.joint.y h.control2.y e2.symm))
    (.curve h4x (agree_sub_zero h4y h.control3.y h.joint.y e3) h5x hback h6x
      (agree_sub_zero h6y h.stop.y h.control4.y (by omega)))

theorem hflex1_fits (hse : (s.y == e.y) = true) (h2 : (c2.y == p.y) = true)
    (h3 : (c3.y == p.y) = true) :
    (⟨.hflex1, [[(c1 - s).x, (c1 - s).y, (c2 - c1).x, (c2 - c1).y, (p - c2).x],
      [(c3 - p).x, (c4 - c3).x, (c4 - c3).y, (e - c4).x]]⟩ : Command α).Fits r limit
      (.curve (c1.x - s.x) (c1.y - s.y) (c2.x - c1.x) (c2.y - c1.y) (p.x - c2.x) (p.y - c2.y) ::
        .curve (c3.x - p.x) (c3.y - p.y) (c4.x - c3.x) (c4.y - c3.y) (e.x - c4.x) (e.y - c4.y) ::
          rest) := by
  obtain _ | ⟨h1x, h1y, h2x, h2y, h3x, h3y⟩ := h.first
  obtain _ | ⟨h4x, h4y, h5x, h5y, h6x, h6y⟩ := h.second
  have ey := units_eq_of_beq hse h.start.y h.stop.y
  have e2 := units_eq_of_beq h2 h.control2.y h.joint.y
  have e3 := units_eq_of_beq h3 h.control3.y h.joint.y
  have b1 := h1y.bound
  have b2 := h2y.bound
  have b5 := h5y.bound
  have u1 := units_sub h1y h.control1.y h.start.y
  have u2 := units_sub h2y h.control2.y h.control1.y
  have u5 := units_sub h5y h.control4.y h.control3.y
  have u6 := (units_sub h6y h.stop.y h.control4.y).1
  obtain ⟨g12, u12⟩ := h1y.onGrid.2.add h2y.onGrid.2 (by omega) (by omega)
  obtain ⟨g125, u125⟩ := g12.add h5y.onGrid.2 (by omega) (by omega)
  have hback : Agree (e.y - c4.y) (-(r (c1.y - s.y) + r (c2.y - c1.y) + r (c4.y - c3.y))) :=
    agree_neg h6y g125 (by omega)
  exact two_curves_fit (by simp; omega) rfl
    (.curve h1x h1y h2x h2y h3x (agree_sub_zero h3y h.joint.y h.control2.y e2.symm))
    (.curve h4x (agree_sub_zero h4y h.control3.y h.joint.y e3) h5x h5y h6x hback)

theorem flex1_fits (hse : (s.x == e.x) = true)
    (htall : Scalar.abs (c4.x - s.x) ≤ Scalar.abs (c4.y - s.y)) :
    (⟨.flex1, [[(c1 - s).x, (c1 - s).y, (c2 - c1).x, (c2 - c1).y, (p - c2).x, (p - c2).y],
      [(c3 - p).x, (c3 - p).y, (c4 - c3).x, (c4 - c3).y, (e - c4).y]]⟩ : Command α).Fits r limit
      (.curve (c1.x - s.x) (c1.y - s.y) (c2.x - c1.x) (c2.y - c1.y) (p.x - c2.x) (p.y - c2.y) ::
        .curve (c3.x - p.x) (c3.y - p.y) (c4.x - c3.x) (c4.y - c3.y) (e.x - c4.x) (e.y - c4.y) ::
          rest) := by
  obtain _ | ⟨h1x, h1y, h2x, h2y, h3x, h3y⟩ := h.first
  obtain _ | ⟨h4x, h4y, h5x, h5y, h6x, h6y⟩ := h.second
  have ex := units_eq_of_beq hse h.start.x h.stop.x
  obtain ⟨gx, ux⟩ := sum_five h1x h2x h3x h4x h5x
  obtain ⟨gy, uy⟩ := sum_five h1y h2y h3y h4y h5y
  have u1x := (units_sub h1x h.control1.x h.start.x).1
  have u2x := (units_sub h2x h.control2.x h.control1.x).1
  have u3x := (units_sub h3x h.joint.x h.control2.x).1
  have u4x := (units_sub h4x h.control3.x h.joint.x).1
  have u5x := (units_sub h5x h.control4.x h.control3.x).1
  have u6x := (units_sub h6x h.stop.x h.control4.x).1
  have u1y := (units_sub h1y h.control1.y h.start.y).1
  have u2y := (units_sub h2y h.control2.y h.control1.y).1
  have u3y := (units_sub h3y h.joint.y h.control2.y).1
  have u4y := (units_sub h4y h.control3.y h.joint.y).1
  have u5y := (units_sub h5y h.control4.y h.control3.y).1
  have bsx := h.start.x.bound
  have bsy := h.start.y.bound
  have b4x := h.control4.x.bound
  have b4y := h.control4.y.bound
  obtain ⟨gdx, udx⟩ := h.control4.x.onGrid.1.sub h.start.x.onGrid.1 (by omega) (by omega)
  obtain ⟨gdy, udy⟩ := h.control4.y.onGrid.1.sub h.start.y.onGrid.1 (by omega) (by omega)
  have hle : |units (c4.x - s.x)| ≤ |units (c4.y - s.y)| := by
    have := (gdx.abs.le_iff gdy.abs).mp htall
    omega
  generalize hdx : r (c1.x - s.x) + r (c2.x - c1.x) + r (p.x - c2.x) + r (c3.x - p.x) +
    r (c4.x - c3.x) = dx at gx ux
  generalize hdy : r (c1.y - s.y) + r (c2.y - c1.y) + r (p.y - c2.y) + r (c3.y - p.y) +
    r (c4.y - c3.y) = dy at gy uy
  have hwide : ¬ Scalar.abs dy < Scalar.abs dx := by
    rw [gy.abs.lt_iff gx.abs]
    rw [show units dy = units (c4.y - s.y) by omega, show units dx = units (c4.x - s.x) by omega]
    omega
  have hback : Agree (e.x - c4.x) (-dx) := agree_neg h6x gx (by omega)
  refine two_curves_fit (by simp; omega) ?_ (.curve h1x h1y h2x h2y h3x h3y)
    (.curve h4x h4y h5x h5y hback h6y)
  subst hdx hdy
  exact if_neg hwide

theorem flex_fits (depth : α) :
    (⟨.flex, [[(c1 - s).x, (c1 - s).y, (c2 - c1).x, (c2 - c1).y, (p - c2).x, (p - c2).y],
      [(c3 - p).x, (c3 - p).y, (c4 - c3).x, (c4 - c3).y, (e - c4).x, (e - c4).y, depth]]⟩ :
      Command α).Fits r limit
      (.curve (c1.x - s.x) (c1.y - s.y) (c2.x - c1.x) (c2.y - c1.y) (p.x - c2.x) (p.y - c2.y) ::
        .curve (c3.x - p.x) (c3.y - p.y) (c4.x - c3.x) (c4.y - c3.y) (e.x - c4.x) (e.y - c4.y) ::
          rest) := by
  obtain _ | ⟨h1x, h1y, h2x, h2y, h3x, h3y⟩ := h.first
  obtain _ | ⟨h4x, h4y, h5x, h5y, h6x, h6y⟩ := h.second
  exact two_curves_fit (by simp; omega) rfl (.curve h1x h1y h2x h2y h3x h3y)
    (.curve h4x h4y h5x h5y h6x h6y)

end Pair

theorem ofFlex?_fits (options : EncodeOptions α) {limit : ℕ} (hlimit : 13 ≤ limit)
    {legs : List (Leg α)} (h : ∀ l ∈ legs, l.Kept r) (hlinked : Linked legs) {c : Command α}
    (hc : ofFlex? options legs = some c) : c.Fits r limit (legs.map Leg.step) := by
  unfold ofFlex? at hc
  split at hc
  · rename_i s c1 c2 p mask start' c3 c4 e mask' rest
    obtain ⟨hl1, hl2, -⟩ := List.forall_mem_cons.mp h |>.imp_right List.forall_mem_cons.mp
    obtain rfl : start' = p := (List.isChain_cons_cons.mp hlinked).1
    obtain ⟨hc1, hc2⟩ := hl1.controls rfl
    obtain ⟨hc3, hc4⟩ := hl2.controls rfl
    have hpair : KeptPair r s c1 c2 start' c3 c4 e :=
      ⟨hl1.start, hc1, hc2, hl1.stop, hc3, hc4, hl2.stop, hl1.step, hl2.step⟩
    dsimp only at hc
    split_ifs at hc with hse hsey hshallow hflat hsex hshallow htall
    · cases hc
      simp only [Bool.not_eq_true', Bool.not_eq_false, Bool.and_eq_true] at hshallow hflat
      exact hflex_fits hlimit hpair _ hsey hshallow.1.2 hshallow.2 hflat.1 hflat.2
    · cases hc
      simp only [Bool.not_eq_true', Bool.not_eq_false, Bool.and_eq_true] at hshallow
      exact hflex1_fits hlimit hpair _ hsey hshallow.1.2 hshallow.2
    · cases hc
      exact flex1_fits hlimit hpair _ hsex htall
    · cases hc
      exact flex_fits hlimit hpair _ options.flexDepthOperand
  · cases hc

theorem choose_fits (options : EncodeOptions α) {limit : ℕ} (hlimit : 13 ≤ limit)
    {legs : List (Leg α)} (h : ∀ l ∈ legs, l.Kept r) (hlinked : Linked legs) {c : Command α}
    (hc : choose options limit legs = some c) : c.Fits r limit (legs.map Leg.step) := by
  have hsteps : ∀ s ∈ legs.map Leg.step, s.Kept r := by
    intro s hs
    obtain ⟨l, hl, rfl⟩ := List.mem_map.mp hs
    exact (h l hl).step
  unfold choose at hc
  split at hc
  · rename_i command hflex
    cases hc
    split_ifs at hflex
    exact ofFlex?_fits options hlimit h hlinked hflex
  · dsimp only at hc
    generalize legs.map Leg.step = steps at hc hsteps ⊢
    rcases steps with _ | ⟨_ | _, rest⟩
    · cases hc
    · cases hc
      exact ofLines_fits hlimit hsteps
    · cases hc
      exact ofCurves_fits hlimit hsteps

omit [LawfulScalar α] in
theorem choose_isSome (options : EncodeOptions α) (limit : ℕ) (leg : Leg α) (legs : List (Leg α)) :
    (choose options limit (leg :: legs)).isSome = true := by
  unfold choose
  split
  · rfl
  · dsimp only
    rw [List.map_cons]
    generalize leg.step = s
    cases s <;> rfl

end Command

end Letterform.Charstring
