import Letterform.Proofs.Charstring.Program
import Letterform.Proofs.Number.RoundUp

/-!
# The beginning of a Type 1 charstring

Type 1 has whole numbers, which come back as they are. A charstring gives the metrics and then
declares each stem by an operator of its own. What follows is measured from the side bearing point.
-/

namespace Letterform

open Scalar (IsFixed)

variable {α : Type} [Scalar α] [LawfulScalar α]

namespace Charstring

-- ---------------------------------------------------------------------------
-- Whole numbers
-- ---------------------------------------------------------------------------

namespace Operand

omit [LawfulScalar α] in
theorem reread_type1 (a : α) : reread .type1 a = Scalar.ofInt (Scalar.toInt32 (Scalar.round a)) := by
  simp [reread, held]

theorem isFixed_reread_whole {a : α} {n : ℤ} (h : IsFixed a (65536 * n)) (hlow : -2 ^ 31 ≤ n)
    (hhigh : n < 2 ^ 31) : IsFixed (reread .type1 a) (65536 * n) := by
  rw [reread_type1, h.round.toInt32 hlow hhigh]
  exact Scalar.isFixed_ofInt (by rw [abs_lt]; omega)

/-- Whatever is written in Type 1, a whole number comes back. -/
theorem exists_reread_whole (a : α) :
    ∃ n : ℤ, -2 ^ 31 ≤ n ∧ n < 2 ^ 31 ∧ IsFixed (reread .type1 a) (65536 * n) := by
  have hword : -0x80000000 ≤ Scalar.toInt32 (Scalar.round a) ∧
      Scalar.toInt32 (Scalar.round a) ≤ 0x7fffffff := LawfulScalar.truncate_mem (by norm_num)
  refine ⟨Scalar.toInt32 (Scalar.round a), by omega, by omega, ?_⟩
  rw [reread_type1]
  exact Scalar.isFixed_ofInt (by rw [abs_lt]; omega)

end Operand

/-- What is checked is kept if it is not moved by rounding, since it is not too large. -/
theorem coordinate_kept {a b : Float} {n : ℤ}
    (ha : LawfulScalar.Denotes (Scalar.roundUp a) (n : ℚ) ∨
      ∀ c q, LawfulScalar.Denotes c q → |q| < 2 ^ 40 → c < Scalar.abs (Scalar.roundUp a))
    (h : coordinate .type1 a = .ok b) : IsFixed b (65536 * n) ∧ -2 ^ 15 < n ∧ n < 2 ^ 15 := by
  have hlimit : IsFixed (coordinateLimit : Float) (65536 * 32767) :=
    Scalar.isFixed_ofInt (by norm_num)
  unfold coordinate at h
  rw [if_pos rfl] at h
  dsimp only at h
  split_ifs at h with hover
  cases h
  rcases ha with hwhole | hfar
  · have hb : IsFixed (Scalar.roundUp a) (65536 * n) := Scalar.isFixed_whole.mpr hwhole
    rw [hlimit.lt_iff hb.abs, abs_mul, abs_of_pos (show (0 : ℤ) < 65536 by norm_num)] at hover
    have := abs_le.mp (show |n| ≤ 32767 by omega)
    exact ⟨hb, by omega, by omega⟩
  · exact absurd (hfar _ _ (Scalar.isFixed_whole.mp hlimit) (by norm_num)) hover

theorem coordinate_whole {a b : Float} {n : ℤ} (ha : IsFixed a (65536 * n))
    (h : coordinate .type1 a = .ok b) : IsFixed b (65536 * n) ∧ -2 ^ 15 < n ∧ n < 2 ^ 15 :=
  coordinate_kept (Double.roundUp_whole (Scalar.isFixed_whole.mp ha)) h

theorem coordinate_sub {a b c : Float} {m n : ℤ} (ha : IsFixed a (65536 * m))
    (hb : IsFixed b (65536 * n)) (h : coordinate .type1 (a - b) = .ok c) :
    IsFixed c (65536 * (m - n)) ∧ -2 ^ 15 < m - n ∧ m - n < 2 ^ 15 :=
  coordinate_kept (Double.roundUp_sub (Scalar.isFixed_whole.mp ha) (Scalar.isFixed_whole.mp hb)) h

-- ---------------------------------------------------------------------------
-- Instructions
-- ---------------------------------------------------------------------------

/-- The operands of some stem operators of Type 1, one operator for each stem. -/
def DeclaresEach (origin : α) (stems : List (Stem α)) (runs : List (List α)) : Prop :=
  List.Forall₂ (fun stem operands => stemOperands .type1 origin 0 [stem] = .ok operands) stems runs

omit [LawfulScalar α] in
theorem DeclaresEach.length_eq {origin : α} {stems : List (Stem α)} {runs : List (List α)}
    (h : DeclaresEach origin stems runs) : ∀ operands ∈ runs, operands.length = 2 := by
  intro operands hmem
  obtain ⟨stem, -, hoperands⟩ := exists_of_forall₂ h hmem
  exact length_stemOperands hoperands

omit [LawfulScalar α] in
theorem DeclaresEach.length_readStems {origin : α} {stems : List (Stem α)} {runs : List (List α)}
    (h : DeclaresEach origin stems runs) : (readStems .type1 runs).length = stems.length := by
  induction h with
  | nil => rfl
  | @cons stem operands stems runs hstem _ ih =>
    have hlength : (operands.map (Operand.reread .type1)).length = 2 * 1 := by
      rw [List.length_map, length_stemOperands hstem]
      rfl
    rw [readStems, List.flatMap_cons, List.length_append, length_stemsFrom 0 hlength,
      List.length_cons, Nat.add_comm]
    exact congrArg (· + 1) ih

/-- The parts of a Type 1 program: the metrics, the operands of its stem operators, and what comes
after them. -/
structure PlainParts (g : Glyph α) (program : List (Instruction α)) (bearing width : α)
    (horizontal vertical : List (List α)) (rest : List (Instruction α)) : Prop where
  bearing_ok : coordinate .type1 g.bearing = .ok bearing
  width_ok : coordinate .type1 g.advanceWidth = .ok width
  horizontal_declares : DeclaresEach 0 (g.hints.declared .horizontal) horizontal
  vertical_declares : DeclaresEach bearing (g.hints.declared .vertical) vertical
  program_eq : program = .operation .hsbw [bearing, width] ::
    (horizontal.map (.operation (.stems .horizontal false)) ++
      (vertical.map (.operation (.stems .vertical false)) ++ rest))

variable {g : Glyph α} {program rest : List (Instruction α)} {bearing width : α}
  {horizontal vertical : List (List α)}

omit [LawfulScalar α] in
theorem plainInstructions_parts {accented : Option (Accented α)}
    (h : plainInstructions g accented = .ok program) :
    ∃ bearing width horizontal vertical rest,
      PlainParts g program bearing width horizontal vertical rest ∧
      match accented with
      | some accented => ∃ operands, accented.operands .type1 = .ok operands ∧
        rest = [.operation .seac (bearing :: operands)]
      | none => ∃ ts, traces .type1 g = .ok ts ∧
        rest = plainContours ⟨bearing, 0⟩ ts ++ [.operation .endchar []] := by
  unfold plainInstructions at h
  obtain ⟨bearing, hbearing, h⟩ := bind_ok.mp h
  obtain ⟨width, hwidth, h⟩ := bind_ok.mp h
  obtain ⟨hstems, hh, h⟩ := bind_ok.mp h
  obtain ⟨vstems, hv, h⟩ := bind_ok.mp h
  obtain ⟨horizontal, rfl, hhorizontal⟩ := mapM_operation_ok hh
  obtain ⟨vertical, rfl, hvertical⟩ := mapM_operation_ok hv
  cases accented with
  | some accented =>
    obtain ⟨operands, hoperands, h⟩ := bind_ok.mp h
    cases h
    refine ⟨bearing, width, horizontal, vertical, _, ⟨hbearing, hwidth, hhorizontal, hvertical, ?_⟩,
      operands, hoperands, rfl⟩
    simp only [List.cons_append, List.append_assoc]
  | none =>
    obtain ⟨ts, hts, h⟩ := bind_ok.mp h
    cases h
    refine ⟨bearing, width, horizontal, vertical, _, ⟨hbearing, hwidth, hhorizontal, hvertical, ?_⟩,
      ts, hts, rfl⟩
    simp only [List.cons_append, List.append_assoc]

-- ---------------------------------------------------------------------------
-- Execution
-- ---------------------------------------------------------------------------

namespace Machine

variable {ctx : Context α} {m : Machine α} (levels : ℕ)

omit [LawfulScalar α] in
theorem evaluate_hsbw (hready : m.Ready ctx) (bearing width : α) :
    (m.load [bearing, width]).evaluate ctx .hsbw = .ok (m.setBearing ⟨bearing, 0⟩ width) := by
  have hready' : (m.setBearing ⟨bearing, 0⟩ width).Ready ctx :=
    ⟨hready.empty, hready.limit, hready.width, hready.flex⟩
  have hclear : ((m.load [bearing, width]).setBearing ⟨bearing, 0⟩ width).clear =
      m.setBearing ⟨bearing, 0⟩ width := hready'.clear_withStack rfl
  simp only [evaluate, hready.operands_load, hclear]

/-- The machine after the metrics, at the side bearing point. -/
def bearingAt (ctx : Context α) (bearing width : α) : Machine α :=
  (start ctx).setBearing ⟨Operand.reread .type1 bearing, 0⟩ (Operand.reread .type1 width)

omit [LawfulScalar α] in
theorem ready_bearingAt (hversion : ctx.version = .type1) (bearing width : α) :
    (bearingAt ctx bearing width).Ready ctx :=
  ⟨rfl, rfl, .inr (by rw [hversion]; nofun), rfl⟩

theorem run_beginning (hversion : ctx.version = .type1)
    (h : PlainParts g program bearing width horizontal vertical rest) {numbers : List ℕ}
    {hints : StemHints α}
    (hadd : StemHints.addAll
      ((readStems .type1 horizontal).map ((bearingAt ctx bearing width).stemAt .horizontal) ++
        (readStems .type1 vertical).map ((bearingAt ctx bearing width).stemAt .vertical)) {} =
          some (numbers, hints)) :
    ∃ m, OrSettled ((bearingAt ctx bearing width).declare numbers hints) m ∧
      (start ctx).run ctx levels (program.flatMap (·.toBytes ctx.version)) =
        m.run ctx levels (rest.flatMap (·.toBytes ctx.version)) := by
  have hstart : (start ctx).Ready ctx := ⟨rfl, rfl, .inr (by rw [hversion]; nofun), rfl⟩
  have hready := ready_bearingAt hversion bearing width
  have hoperands {origin : α} {stems : List (Stem α)} {runs : List (List α)}
      (h : DeclaresEach origin stems runs) : ∀ operands ∈ runs,
        operands.length ≤ ctx.version.stackLimit ∧
          stemsFrom 0 (operands.map (Operand.reread ctx.version)) ≠ [] := by
    intro operands hmem
    have hlength := h.length_eq operands hmem
    refine ⟨?_, fun hnil => ?_⟩
    · have := ctx.version.le_stackLimit
      omega
    · have hreread : (operands.map (Operand.reread ctx.version)).length = 2 * 1 := by
        rw [List.length_map, hlength]
      have := length_stemsFrom 0 hreread
      rw [hnil] at this
      cases this
  have hh := hoperands h.horizontal_declares
  have hv := hoperands h.vertical_declares
  obtain ⟨first, hints1, second, hfirst, hsecond, rfl⟩ := StemHints.addAll_append.mp hadd
  rw [readStems, ← hversion] at hfirst hsecond
  have hknown (axis : Axis) : (Operator.stems axis false).isKnownTo ctx.version = true := rfl
  obtain ⟨m1, hm1, hrun1⟩ := run_stems levels (.refl (bearingAt ctx bearing width)) hready rfl
    (hknown .horizontal) (fun operands hmem => (hh operands hmem).1)
    (fun operands hmem => (hh operands hmem).2) hfirst
  obtain ⟨m2, hm2, hrun2⟩ := run_stems levels hm1 (hready.declare first hints1) rfl
    (hknown .vertical) (fun operands hmem => (hv operands hmem).1)
    (fun operands hmem => (hv operands hmem).2) hsecond
  rw [declare_declare] at hm2
  have hmetrics : ((start ctx).load ([bearing, width].map (Operand.reread ctx.version))).evaluate
      ctx .hsbw = .ok (bearingAt ctx bearing width) := by
    rw [bearingAt, ← hversion]
    exact evaluate_hsbw hstart _ _
  have hroom : (start ctx).stack.size + [bearing, width].length ≤ (start ctx).stack.limit := by
    rw [hstart.size, hstart.limit, hversion]
    exact (by decide : 2 ≤ 48)
  refine ⟨m2, hm2, ?_⟩
  rw [h.program_eq, List.flatMap_cons, List.flatMap_append, List.flatMap_append,
    run_operation ctx levels (by rw [hversion]; rfl) rfl _ _ _ hroom, hmetrics, ← hrun2, ← hrun1]
  rfl

end Machine

end Charstring

end Letterform
