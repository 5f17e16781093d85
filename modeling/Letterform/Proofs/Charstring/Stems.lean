import Letterform.Proofs.Charstring.Contours
import Letterform.Proofs.Hint.Stem

/-!
# Stems are declared

The stems of each axis are declared by as many operators as the stack calls for, and the machine
adds them one after another as it comes to them.
-/

namespace Letterform.Charstring

variable {α : Type} [Scalar α]

-- ---------------------------------------------------------------------------
-- Pieces
-- ---------------------------------------------------------------------------

theorem flatten_take_pieces {β : Type} (size count : ℕ) (xs : List β) :
    ((List.range count).map fun i => (xs.drop (i * size)).take size).flatten =
      xs.take (count * size) := by
  induction count with
  | zero => simp
  | succ count ih =>
    rw [List.range_succ, List.map_append, List.flatten_append, ih, List.map_singleton,
      List.flatten_singleton, add_mul, one_mul, ← List.take_add]

theorem flatten_pieces {β : Type} {size : ℕ} (hsize : 0 < size) (xs : List β) :
    (pieces size xs).flatten = xs := by
  rw [pieces, flatten_take_pieces, List.take_of_length_le]
  have := Nat.lt_div_mul_add hsize (a := xs.length + size - 1)
  omega

theorem length_of_mem_pieces {β : Type} {size : ℕ} (hsize : 0 < size) {xs piece : List β}
    (h : piece ∈ pieces size xs) : 0 < piece.length ∧ piece.length ≤ size := by
  obtain ⟨i, hi, rfl⟩ := List.mem_map.mp h
  rw [List.mem_range, Nat.lt_div_iff_mul_lt hsize] at hi
  rw [List.length_take, List.length_drop]
  omega

-- ---------------------------------------------------------------------------
-- Operands
-- ---------------------------------------------------------------------------

theorem length_stemOperands {version : Version} {origin edge : α} {stems : List (Stem α)}
    {operands : List α} (h : stemOperands version origin edge stems = .ok operands) :
    operands.length = 2 * stems.length := by
  induction stems generalizing edge operands with
  | nil =>
    cases h
    rfl
  | cons stem stems ih =>
    obtain ⟨start, -, h⟩ := bind_ok.mp h
    obtain ⟨width, -, h⟩ := bind_ok.mp h
    obtain ⟨rest, hrest, h⟩ := bind_ok.mp h
    cases h
    rw [List.length_cons, List.length_cons, List.length_cons, ih hrest]
    omega

theorem length_stemsFrom (edge : α) {operands : List α} {n : ℕ} (h : operands.length = 2 * n) :
    (Machine.stemsFrom edge operands).length = n := by
  induction n generalizing edge operands with
  | zero =>
    obtain rfl := List.length_eq_zero_iff.mp h
    rfl
  | succ n ih =>
    rcases operands with _ | ⟨delta, _ | ⟨width, rest⟩⟩
    · simp at h
    · simp at h
      omega
    · rw [List.length_cons, List.length_cons] at h
      rw [Machine.stemsFrom, List.length_cons, ih _ (by omega)]

/-- The stems that the operands of some stem operators are read as. -/
def readStems (version : Version) (runs : List (List α)) : List (α × α) :=
  runs.flatMap fun operands => Machine.stemsFrom 0 (operands.map (Operand.reread version))

theorem readStems_cons (version : Version) (operands : List α) (runs : List (List α)) :
    readStems version (operands :: runs) =
      readStems version [operands] ++ readStems version runs := by
  rw [← List.singleton_append, readStems, List.flatMap_append]
  rfl

/-- The operands of the operators that declare some stems, each of them a piece. -/
structure Declares (version : Version) (stems : List (Stem α)) (runs : List (List α)) : Prop where
  operands : List.Forall₂ (fun piece operands => stemOperands version 0 0 piece = .ok operands)
    (pieces ((version.stackLimit - 1) / 2) stems) runs
  even : ∀ operands ∈ runs, operands.length % 2 = 0
  room : ∀ operands ∈ runs, operands.length < version.stackLimit
  some : ∀ operands ∈ runs, Machine.stemsFrom 0 (operands.map (Operand.reread version)) ≠ []

omit [Scalar α] in
theorem mapM_operation_ok {β : Type} {op : Operator} {f : β → Except (EncodeError α) (List α)}
    {xs : List β} {instructions : List (Instruction α)}
    (h : xs.mapM (fun x => do return Instruction.operation op (← f x)) = .ok instructions) :
    ∃ runs, instructions = runs.map (.operation op) ∧
      List.Forall₂ (fun x operands => f x = .ok operands) xs runs := by
  replace h := mapM_ok h
  induction h with
  | nil => exact ⟨[], rfl, .nil⟩
  | cons hx _ ih =>
    obtain ⟨operands, hoperands, hx⟩ := bind_ok.mp hx
    cases hx
    obtain ⟨runs, rfl, hruns⟩ := ih
    exact ⟨operands :: runs, rfl, .cons hoperands hruns⟩

theorem declareStems_ok {version : Version} {axis : Axis} {masked : Bool} {stems : List (Stem α)}
    {instructions : List (Instruction α)}
    (h : declareStems version axis masked stems = .ok instructions) :
    ∃ runs, instructions = runs.map (.operation (.stems axis masked)) ∧
      Declares version stems runs := by
  obtain ⟨runs, rfl, hruns⟩ := mapM_operation_ok h
  have hlimit := version.le_stackLimit
  have hlength (operands : List α) (hmem : operands ∈ runs) : ∃ n, 0 < n ∧
      2 * n < version.stackLimit ∧ operands.length = 2 * n := by
    obtain ⟨piece, hpiece, hoperands⟩ := exists_of_forall₂ hruns hmem
    obtain ⟨hpos, hle⟩ := length_of_mem_pieces (by omega) hpiece
    exact ⟨piece.length, hpos, by omega, length_stemOperands hoperands⟩
  refine ⟨runs, rfl, hruns, fun operands hmem => ?_, fun operands hmem => ?_,
    fun operands hmem hnil => ?_⟩
  all_goals obtain ⟨n, hpos, hroom, hn⟩ := hlength operands hmem
  · omega
  · omega
  · have hreread : (operands.map (Operand.reread version)).length = 2 * n := by
      rw [List.length_map, hn]
    have := length_stemsFrom 0 hreread
    rw [hnil, List.length_nil] at this
    omega

theorem length_readStems {version : Version} {stems : List (Stem α)} {runs : List (List α)}
    (h : Declares version stems runs) : (readStems version runs).length = stems.length := by
  have hlimit := version.le_stackLimit
  have hflatten := flatten_pieces (show 0 < (version.stackLimit - 1) / 2 by omega) stems
  have hruns := h.operands
  clear h
  rw [← hflatten]
  generalize pieces ((version.stackLimit - 1) / 2) stems = parts at hruns
  induction hruns with
  | nil => rfl
  | @cons piece operands parts runs hpiece _ ih =>
    have hlength : (operands.map (Operand.reread version)).length = 2 * piece.length := by
      rw [List.length_map, length_stemOperands hpiece]
    rw [List.flatten_cons, List.length_append, readStems, List.flatMap_cons, List.length_append,
      length_stemsFrom 0 hlength]
    exact congrArg _ ih

-- ---------------------------------------------------------------------------
-- Declaring
-- ---------------------------------------------------------------------------

namespace Machine

variable {ctx : Context α} {m : Machine α} (levels : ℕ)

/-- The stem that a machine adds for a start and a width that it has read. -/
def stemAt (m : Machine α) (axis : Axis) (stem : α × α) : Axis × α × α :=
  let offset := match axis with
    | .horizontal => m.origin.y
    | .vertical => m.origin.x
  (axis, Scalar.snap stem.1 + offset, Scalar.snap stem.2)

/-- The machine with other stems, after some declarations. -/
def declare (m : Machine α) (numbers : List ℕ) (hints : StemHints α) : Machine α :=
  { m with
    glyph := { m.glyph with hints }
    declared := m.declared ++ numbers.toArray }

omit [Scalar α] in
theorem declare_nil (m : Machine α) : m.declare [] m.glyph.hints = m := by
  simp [declare]

omit [Scalar α] in
theorem declare_declare (m : Machine α) (first second : List ℕ) (hints hints' : StemHints α) :
    (m.declare first hints).declare second hints' = m.declare (first ++ second) hints' := by
  simp [declare]

omit [Scalar α] in
theorem Ready.declare (h : m.Ready ctx) (numbers : List ℕ) (hints : StemHints α) :
    (m.declare numbers hints).Ready ctx := ⟨h.empty, h.limit, h.width, h.flex⟩

theorem addStems_ok (hreplacing : m.replacingHints = false) {axis : Axis} {stems : List (α × α)}
    {numbers : List ℕ} {hints : StemHints α}
    (h : StemHints.addAll (stems.map (m.stemAt axis)) m.glyph.hints = some (numbers, hints)) :
    m.addStems axis stems = .ok (m.declare numbers hints) := by
  induction stems generalizing m numbers with
  | nil =>
    obtain ⟨rfl, rfl⟩ := Prod.mk.inj (Option.some.inj h)
    rw [declare_nil]
    rfl
  | cons stem stems ih =>
    obtain ⟨start, width⟩ := stem
    obtain ⟨n, hints1, numbers', hadd, hrest, rfl⟩ := StemHints.addAll_cons.mp h
    have hstem : m.addStem axis start width = .ok (m.declare [n] hints1) := by
      unfold addStem
      cases axis <;>
      · dsimp only at hadd ⊢
        rw [hadd]
        simp [declare, hreplacing]
    have hstems := ih (m := m.declare [n] hints1) hreplacing hrest
    rw [declare_declare] at hstems
    show (m.addStem axis start width >>= fun m => m.addStems axis stems) = _
    rw [hstem]
    exact hstems

theorem evaluate_stems (hready : m.Ready ctx) (hreplacing : m.replacingHints = false) {axis : Axis}
    (masked : Bool) {operands : List α} (hsome : stemsFrom 0 operands ≠ []) {numbers : List ℕ}
    {hints : StemHints α}
    (h : StemHints.addAll ((stemsFrom 0 operands).map (m.stemAt axis)) m.glyph.hints =
      some (numbers, hints)) :
    (m.load operands).evaluate ctx (.stems axis masked) =
      .ok (m.settled.declare numbers hints) := by
  have hdeclare : (m.load operands).declareStems ctx axis =
      .ok ((m.settled.load operands).declare numbers hints) := by
    unfold Machine.declareStems
    rw [hready.takeWidth_load]
    dsimp only
    rw [hready.settled.operands_load]
    split
    · contradiction
    · exact addStems_ok (m := m.settled.load operands) hreplacing h
  have hclear : ((m.settled.load operands).declare numbers hints).clear =
      m.settled.declare numbers hints :=
    (hready.settled.declare numbers hints).clear_withStack rfl
  simp only [evaluate, hdeclare, ← hclear]
  rfl

/-- A machine, or the same one when no width can come any more. -/
def OrSettled (m m' : Machine α) : Prop := m' = m ∨ m' = m.settled

omit [Scalar α] in
theorem OrSettled.refl (m : Machine α) : OrSettled m m := .inl rfl

omit [Scalar α] in
theorem OrSettled.eq {m' : Machine α} (h : OrSettled m m') (hwidth : m.widthTaken = true) :
    m' = m := by
  rwa [OrSettled, settled_eq hwidth, or_self_iff] at h

omit [Scalar α] in
theorem OrSettled.ready {m' : Machine α} (h : OrSettled m m') (hready : m.Ready ctx) :
    m'.Ready ctx := by
  rcases h with rfl | rfl
  · exact hready
  · exact hready.settled

variable [LawfulScalar α]

theorem run_stems {m' : Machine α} (hm : OrSettled m m') (hready : m.Ready ctx)
    (hreplacing : m.replacingHints = false) {axis : Axis} {masked : Bool}
    (hknown : (Operator.stems axis masked).isKnownTo ctx.version = true) {runs : List (List α)}
    (hroom : ∀ operands ∈ runs, operands.length ≤ ctx.version.stackLimit)
    (hsome : ∀ operands ∈ runs, stemsFrom 0 (operands.map (Operand.reread ctx.version)) ≠ [])
    {numbers : List ℕ} {hints : StemHints α}
    (h : StemHints.addAll ((runs.flatMap fun operands =>
        stemsFrom 0 (operands.map (Operand.reread ctx.version))).map (m.stemAt axis))
          m.glyph.hints = some (numbers, hints)) :
    ∃ m'', OrSettled (m.declare numbers hints) m'' ∧ ∀ tail,
      m'.run ctx levels ((runs.map (Instruction.operation (.stems axis masked))).flatMap
        (·.toBytes ctx.version) ++ tail) = m''.run ctx levels tail := by
  induction runs generalizing m m' numbers with
  | nil =>
    obtain ⟨rfl, rfl⟩ := Prod.mk.inj (Option.some.inj h)
    rw [declare_nil]
    exact ⟨m', hm, fun tail => rfl⟩
  | cons operands runs ih =>
    obtain ⟨hroom, hrooms⟩ := List.forall_mem_cons.mp hroom
    obtain ⟨hsome, hsomes⟩ := List.forall_mem_cons.mp hsome
    rw [List.flatMap_cons, List.map_append] at h
    obtain ⟨first, hints1, second, hfirst, hsecond, rfl⟩ := StemHints.addAll_append.mp h
    have hevaluate : (m'.load (operands.map (Operand.reread ctx.version))).evaluate ctx
        (.stems axis masked) = .ok (m.settled.declare first hints1) := by
      rcases hm with rfl | rfl
      · exact evaluate_stems hready hreplacing masked hsome hfirst
      · exact evaluate_stems hready.settled hreplacing masked hsome hfirst
    have hready' := hm.ready hready
    obtain ⟨m'', hm'', hrest⟩ := ih (m := m.declare first hints1) (.inr rfl)
      (hready.declare first hints1) hreplacing hrooms hsomes hsecond
    rw [declare_declare] at hm''
    refine ⟨m'', hm'', fun tail => ?_⟩
    rw [List.map_cons, List.flatMap_cons, List.append_assoc, run_operation ctx levels hknown rfl
      operands _ m' (by rw [hready'.size, hready'.limit]; omega), hevaluate]
    exact hrest tail

end Machine

end Letterform.Charstring
