import Letterform.Proofs.Charstring.Contours
import Letterform.Proofs.Charstring.Stems
import Letterform.Proofs.Charstring.Width

/-!
# Whole charstrings

A charstring of Type 2 or CFF2 declares the stems, lists the counter masks and draws the contours.
The machine goes through these parts one after another, whether or not the width comes first.
-/

namespace Letterform.Charstring

variable {α : Type} [Scalar α]

def maskNumbers (g : Glyph α) : Option (List ℕ) :=
  if hasMasks g && !g.hints.order.isEmpty then some g.hints.order else none

omit [Scalar α] in
theorem eq_order_of_maskNumbers {g : Glyph α} {numbers : List ℕ}
    (h : maskNumbers g = some numbers) : numbers = g.hints.order := by
  unfold maskNumbers at h
  split_ifs at h
  exact (Option.some.inj h).symm

def stemInstructions (g : Glyph α) (axis : Axis) (runs : List (List α)) : List (Instruction α) :=
  runs.map (.operation (.stems axis (maskNumbers g).isSome))

def counterInstructions (g : Glyph α) : List (Instruction α) :=
  match maskNumbers g with
  | some numbers => g.counterMasks.map (maskInstruction true numbers)
  | none => []

def endInstructions (version : Version) : List (Instruction α) :=
  if version = .type2 then [.operation .endchar []] else []

/-- The parts of a program: the operands of its stem operators and the traces of its contours. -/
structure Parts (version : Version) (options : EncodeOptions α) (g : Glyph α)
    (program : List (Instruction α)) (horizontal vertical : List (List α))
    (traces : List (Trace α)) : Prop where
  horizontal_declares : Declares version (g.hints.declared .horizontal) horizontal
  vertical_declares : Declares version (g.hints.declared .vertical) vertical
  traces_ok : Charstring.traces version g = .ok traces
  program_eq : program =
    stemInstructions g .horizontal horizontal ++ stemInstructions g .vertical vertical ++
      counterInstructions g ++
      contours options version.stackLimit (maskNumbers g) default traces ++ endInstructions version

variable {version : Version} {options : EncodeOptions α} {g : Glyph α}
  {program : List (Instruction α)} {horizontal vertical : List (List α)} {ts : List (Trace α)}

/-- A program without its parts being named: an accented character is given where it ends. -/
theorem instructions_ok {accented : Option (Accented α)}
    (h : instructions g accented version options = .ok program) :
    ∃ horizontal vertical ts ending,
      Declares version (g.hints.declared .horizontal) horizontal ∧
      Declares version (g.hints.declared .vertical) vertical ∧
      Charstring.traces version g = .ok ts ∧
      program = stemInstructions g .horizontal horizontal ++ stemInstructions g .vertical vertical ++
        counterInstructions g ++
        contours options version.stackLimit (maskNumbers g) default ts ++ ending ∧
      match accented with
      | some accented => ∃ operands, accented.operands version = .ok operands ∧
        ending = [.operation .endchar operands]
      | none => ending = endInstructions version := by
  unfold instructions at h
  dsimp only at h
  obtain ⟨hstems, hh, h⟩ := bind_ok.mp h
  obtain ⟨vstems, hv, h⟩ := bind_ok.mp h
  obtain ⟨ts, hts, h⟩ := bind_ok.mp h
  obtain ⟨horizontal, rfl, hhorizontal⟩ := declareStems_ok hh
  obtain ⟨vertical, rfl, hvertical⟩ := declareStems_ok hv
  refine ⟨horizontal, vertical, ts, ?_⟩
  cases accented with
  | some accented =>
    obtain ⟨operands, hoperands, h⟩ := bind_ok.mp h
    exact ⟨_, hhorizontal, hvertical, hts, (pure_ok.mp h).symm, operands, hoperands, rfl⟩
  | none =>
    simp only [pure_bind, pure_ok] at h
    exact ⟨_, hhorizontal, hvertical, hts, h.symm, rfl⟩

theorem instructions_parts (h : instructions g none version options = .ok program) :
    ∃ horizontal vertical ts, Parts version options g program horizontal vertical ts := by
  obtain ⟨horizontal, vertical, ts, ending, hh, hv, hts, hprogram, rfl⟩ := instructions_ok h
  exact ⟨horizontal, vertical, ts, hh, hv, hts, hprogram⟩

-- ---------------------------------------------------------------------------
-- Masks
-- ---------------------------------------------------------------------------

section

variable {stemCount : ℕ} {declared : Option (List ℕ)}
  (h : ∀ numbers ∈ declared, HintMask.byteLength numbers.length = HintMask.byteLength stemCount)

include h

theorem masksFit_runs (limit : ℕ) (legs : List (Leg α)) :
    MasksFit stemCount (runs options limit declared legs) := by
  induction hlength : legs.length using Nat.strong_induction_on generalizing legs with
  | _ n ih =>
    subst hlength
    rcases legs with _ | ⟨leg, legs⟩
    · rw [runs]
      exact List.forall_mem_nil _
    · rw [runs_window]
      exact masksFit_append.mpr ⟨masksFit_maskBefore h leg.mask,
        (masksFit_operation _ _).mpr (ih _ (by simp) _ rfl)⟩

theorem masksFit_contours (limit : ℕ) (position : Point α) (ts : List (Trace α)) :
    MasksFit stemCount (contours options limit declared position ts) := by
  induction ts generalizing position with
  | nil => exact List.forall_mem_nil _
  | cons t ts ih =>
    rw [contours_cons]
    exact masksFit_append.mpr ⟨masksFit_append.mpr ⟨masksFit_maskBefore h t.mask,
      (masksFit_move _ _ _ _).mpr (masksFit_runs h limit t.legs)⟩, ih t.stop⟩

end

omit [Scalar α] in
theorem counterInstructions_eq_nil (h : g.counterMasks = []) : counterInstructions g = [] := by
  unfold counterInstructions
  rw [h]
  cases maskNumbers g <;> rfl

omit [Scalar α] in
theorem masksFit_counters (g : Glyph α) : MasksFit g.hints.order.length (counterInstructions g) := by
  unfold counterInstructions
  cases hmasked : maskNumbers g with
  | none => exact List.forall_mem_nil _
  | some numbers => exact masksFit_map (by rw [eq_order_of_maskNumbers hmasked]) _

theorem Parts.masksFit (h : Parts version options g program horizontal vertical ts) :
    MasksFit g.hints.order.length program := by
  have hnumbers : ∀ numbers ∈ maskNumbers g,
      HintMask.byteLength numbers.length = HintMask.byteLength g.hints.order.length := by
    intro numbers hnumbers
    rw [eq_order_of_maskNumbers hnumbers]
  have hstems (axis : Axis) (runs : List (List α)) :
      MasksFit g.hints.order.length (stemInstructions g axis runs) :=
    masksFit_of_operations (List.forall_mem_map.mpr fun operands _ => ⟨_, operands, rfl⟩)
  have hending : MasksFit g.hints.order.length (endInstructions (α := α) version) := by
    unfold endInstructions
    split_ifs
    · exact (masksFit_operation _ _).mpr (List.forall_mem_nil _)
    · exact List.forall_mem_nil _
  rw [h.program_eq]
  simp only [masksFit_append]
  exact ⟨⟨⟨⟨hstems _ _, hstems _ _⟩, masksFit_counters g⟩, masksFit_contours hnumbers _ _ _⟩,
    hending⟩

-- ---------------------------------------------------------------------------
-- The first instruction
-- ---------------------------------------------------------------------------

theorem leads_stems {stems : List (Stem α)} {runs : List (List α)} (hversion : version ≠ .type1)
    (h : Declares version stems runs) (axis : Axis) (masked : Bool) :
    ∀ operands ∈ runs, (Operator.stems axis masked).Leads version operands := by
  intro operands hmem
  have heven := h.even operands hmem
  refine ⟨rfl, ?_, h.room operands hmem, ?_, ?_⟩
  · cases masked <;> simp [Operator.isKnownTo, hversion]
  · simp [Operator.hasWidth, heven]
  · simp only [Operator.hasWidth, beq_iff_eq]
    omega

theorem move_leads (version : Version) (p q : Point α) :
    ∃ op operands, Instruction.move p q = .operation op operands ∧ op.Leads version operands := by
  have hlimit := version.le_stackLimit
  unfold Instruction.move
  dsimp only
  split_ifs
  · exact ⟨_, _, rfl, rfl, rfl, by simp; omega, rfl, rfl⟩
  · exact ⟨_, _, rfl, rfl, rfl, by simp; omega, rfl, rfl⟩
  · exact ⟨_, _, rfl, rfl, rfl, by simp; omega, rfl, rfl⟩

omit [Scalar α] in
theorem maskNumbers_eq_none (h : g.hints.order = []) : maskNumbers g = none := by
  simp [maskNumbers, h]

/-- A program begins with an instruction that can carry the width, unless it is empty. -/
def Begins (version : Version) (program : List (Instruction α)) : Prop :=
  (∃ op operands rest, program = .operation op operands :: rest ∧ op.Leads version operands) ∨
    program = [] ∧ version ≠ .type2

theorem begins_declarations (hversion : version ≠ .type1)
    (hhorizontal : Declares version (g.hints.declared .horizontal) horizontal)
    (hvertical : Declares version (g.hints.declared .vertical) vertical)
    (rest : List (Instruction α)) :
    Begins version (stemInstructions g .horizontal horizontal ++
      stemInstructions g .vertical vertical ++ counterInstructions g ++ rest) ∨
        horizontal = [] ∧ vertical = [] ∧ maskNumbers g = none := by
  rcases horizontal with _ | ⟨operands, horizontal⟩
  swap
  · exact .inl (.inl ⟨_, operands, _, rfl,
      leads_stems hversion hhorizontal _ _ operands List.mem_cons_self⟩)
  rcases vertical with _ | ⟨operands, vertical⟩
  swap
  · exact .inl (.inl ⟨_, operands, _, rfl,
      leads_stems hversion hvertical _ _ operands List.mem_cons_self⟩)
  have hnumbers : g.hints.order = [] := by
    have hh := length_readStems hhorizontal
    have hv := length_readStems hvertical
    rw [StemHints.order, List.eq_nil_of_length_eq_zero hh.symm, List.eq_nil_of_length_eq_zero hv.symm]
    rfl
  exact .inr ⟨rfl, rfl, maskNumbers_eq_none hnumbers⟩

theorem Parts.begins (h : Parts version options g program horizontal vertical ts)
    (hversion : version ≠ .type1) : Begins version program := by
  obtain ⟨hhorizontal, hvertical, -, rfl⟩ := h
  rw [List.append_assoc]
  obtain hbegins | ⟨rfl, rfl, hnone⟩ := begins_declarations hversion hhorizontal hvertical _
  · exact hbegins
  rw [counterInstructions, hnone]
  rcases ts with _ | ⟨t, ts⟩
  · by_cases htype2 : version = .type2
    · refine .inl ⟨.endchar, [], [], by rw [endInstructions, if_pos htype2]; rfl, rfl, ?_,
        ?_, rfl, rfl⟩
      · rw [htype2]
        rfl
      · have := version.le_stackLimit
        rw [List.length_nil]
        omega
    · exact .inr ⟨by rw [endInstructions, if_neg htype2]; rfl, htype2⟩
  · obtain ⟨op, operands, hmove, hleads⟩ := move_leads version default t.start
    rw [contours_cons, hmove]
    exact .inl ⟨op, operands, _, rfl, hleads⟩

-- ---------------------------------------------------------------------------
-- Execution
-- ---------------------------------------------------------------------------

namespace Machine

/-- A machine before the first instruction, when it is known whether there is a width. -/
structure IsOpening (ctx : Context α) (m : Machine α) : Prop where
  ready : m.Ready ctx
  width : m.widthTaken = true
  replacing : m.replacingHints = false
  pending : m.pendingMask = none
  declared : m.declared = #[]
  position : m.position = default
  origin : m.origin = default
  builder : m.builder = {}
  hints : m.glyph.hints = {}
  counterMasks : m.glyph.counterMasks = []
  components : m.glyph.components = []
  diagnostics : m.diagnostics = #[]

theorem isOpening_start (ctx : Context α) : (start ctx).settled.IsOpening ctx :=
  ⟨⟨rfl, rfl, .inl rfl, rfl⟩, rfl, rfl, rfl, rfl, rfl, rfl, rfl, rfl, rfl, rfl, rfl⟩

theorem isOpening_withWidth (ctx : Context α) (width : α) :
    ((start ctx).withWidth ctx width).IsOpening ctx :=
  ⟨⟨rfl, rfl, .inl rfl, rfl⟩, rfl, rfl, rfl, rfl, rfl, rfl, rfl, rfl, rfl, rfl, rfl⟩

theorem endCharacter_of_ready {ctx : Context α} {m : Machine α} (h : m.Ready ctx)
    (hversion : ctx.version = .type2) : m.endCharacter ctx = m.settled := by
  have hwidth (present : Bool) : m.takeWidth ctx present = m.settled :=
    h.takeWidth_load [] present
  have hoperands : m.settled.operands = [] := h.settled.operands_load []
  unfold endCharacter
  rw [if_pos hversion, hwidth]
  dsimp only
  rw [hoperands]
  exact h.settled.clear_withStack rfl

variable [LawfulScalar α]

omit [LawfulScalar α] in
theorem IsOpening.declare {ctx : Context α} {m : Machine α} (h : m.IsOpening ctx) {stems}
    {numbers : List ℕ} {hints : StemHints α} (hadd : StemHints.addAll stems {} = some (numbers, hints)) :
    (m.declare numbers hints).declared = numbers.toArray ∧
      (m.declare numbers hints).declared.size = stems.length := by
  have hdeclared : (m.declare numbers hints).declared = numbers.toArray := by
    simp [Machine.declare, h.declared]
  exact ⟨hdeclared, by rw [hdeclared, List.size_toArray, StemHints.length_addAll hadd]⟩

variable {ctx : Context α} {m : Machine α} (levels : ℕ)

omit [LawfulScalar α] in
/-- The machine knows of the stems that have been declared, on top of those of its context. -/
theorem hintCount_declare (hm : m.IsOpening ctx)
    (hh : Declares ctx.version (g.hints.declared .horizontal) horizontal)
    (hv : Declares ctx.version (g.hints.declared .vertical) vertical) {numbers : List ℕ}
    {hints : StemHints α}
    (hadd : StemHints.addAll ((readStems ctx.version horizontal).map (m.stemAt .horizontal) ++
      (readStems ctx.version vertical).map (m.stemAt .vertical)) {} = some (numbers, hints)) :
    (m.declare numbers hints).hintCount ctx = ctx.hintCount + g.hints.order.length := by
  obtain ⟨-, hsize⟩ := hm.declare hadd
  rw [hintCount, hsize, StemHints.order, List.length_map, List.length_append, List.length_append,
    List.length_map, List.length_map, length_readStems hh, length_readStems hv]

theorem run_declarations (hversion : ctx.version ≠ .type1) (hm : m.IsOpening ctx)
    (hh : Declares ctx.version (g.hints.declared .horizontal) horizontal)
    (hv : Declares ctx.version (g.hints.declared .vertical) vertical) {numbers : List ℕ}
    {hints : StemHints α}
    (hadd : StemHints.addAll ((readStems ctx.version horizontal).map (m.stemAt .horizontal) ++
      (readStems ctx.version vertical).map (m.stemAt .vertical)) {} = some (numbers, hints))
    (hfits : MasksFit (ctx.hintCount + g.hints.order.length) (counterInstructions g))
    (tail : List UInt8) :
    m.run ctx levels ((stemInstructions g .horizontal horizontal ++
        stemInstructions g .vertical vertical ++ counterInstructions g).flatMap
          (·.toBytes ctx.version) ++ tail) =
      ((m.declare numbers hints).addCounters ((maskNumbers g).elim [] fun masked =>
        g.counterMasks.map ((m.declare numbers hints).readMask ctx masked))).run ctx levels tail := by
  rw [← hintCount_declare hm hh hv hadd] at hfits
  obtain ⟨first, hints1, second, hfirst, hsecond, rfl⟩ := StemHints.addAll_append.mp hadd
  rw [← hm.hints] at hfirst
  have hknown (axis : Axis) (masked : Bool) :
      (Operator.stems axis masked).isKnownTo ctx.version = true := by
    cases masked <;> simp [Operator.isKnownTo, hversion]
  obtain ⟨m1, hm1, hrun1⟩ := run_stems levels (.refl m) hm.ready hm.replacing
    (hknown .horizontal (maskNumbers g).isSome) (fun operands hmem => (hh.room operands hmem).le)
    hh.some hfirst
  obtain ⟨m2, hm2, hrun2⟩ := run_stems levels hm1 (hm.ready.declare first hints1) hm.replacing
    (hknown .vertical (maskNumbers g).isSome) (fun operands hmem => (hv.room operands hmem).le)
    hv.some hsecond
  obtain rfl := hm2.eq hm.width
  rw [List.flatMap_append, List.flatMap_append, List.append_assoc, List.append_assoc,
    stemInstructions, stemInstructions, hrun1, hrun2, declare_declare]
  have hnone (m : Machine α) : m.addCounters [] = m := by simp [Machine.addCounters]
  unfold counterInstructions at hfits ⊢
  generalize maskNumbers g = masked at hfits ⊢
  rcases masked with _ | masked
  · rw [Option.elim_none, hnone]
    rfl
  · exact run_counters levels hversion (hm.ready.declare _ _) hm.width hfits tail

omit [LawfulScalar α] in
/-- A program of Type 2 says where it ends; one of CFF2 just ends. -/
theorem run_ending (hready : m.Ready ctx) :
    ∃ m' ending, m.run ctx levels ((endInstructions (α := α) ctx.version).flatMap
        (·.toBytes ctx.version)) = .ok (m', ending) ∧ (m' = m ∨ m' = m.settled) := by
  unfold endInstructions
  by_cases htype2 : ctx.version = .type2
  · have hbytes : ([Instruction.operation .endchar []] : List (Instruction α)).flatMap
        (·.toBytes ctx.version) = Operator.endchar.opcode.toBytes ++ [] := rfl
    rw [if_pos htype2, hbytes, run_endchar ctx levels (by rw [htype2]; nofun),
      endCharacter_of_ready hready htype2]
    exact ⟨_, _, rfl, .inr rfl⟩
  · rw [if_neg htype2, List.flatMap_nil, run]
    exact ⟨_, _, rfl, .inl rfl⟩

structure IsClosing (masked : Prop) (g : Glyph α) (masks : HintMask → Option HintMask)
    (numbers : List ℕ) (glyph : Glyph α) (m : Machine α) : Prop where
  diagnostics : m.diagnostics = #[]
  declared : m.declared = numbers.toArray
  glyph : m.glyph = glyph
  builder : m.builder.Agree masked
    (g.contours.foldl (fun b (f, c) => Figure.drawSnapped masks f b c) ({} : Builder α))

theorem run_parts (hversion : ctx.version ≠ .type1) (hm : m.IsOpening ctx)
    (h : Parts ctx.version options g program horizontal vertical ts)
    (hfits : MasksFit (ctx.hintCount + g.hints.order.length) program)
    (hdense : g.IsDense) {numbers : List ℕ} {hints : StemHints α}
    (hadd : StemHints.addAll ((readStems ctx.version horizontal).map (m.stemAt .horizontal) ++
      (readStems ctx.version vertical).map (m.stemAt .vertical)) {} = some (numbers, hints))
    (masked : Prop) {masks : HintMask → Option HintMask}
    (hmasks : masked → masks = (m.declare numbers hints).conveyed ctx (maskNumbers g)) :
    ∃ m' ending, m.run ctx levels (program.flatMap (·.toBytes ctx.version)) = .ok (m', ending) ∧
      m'.IsClosing masked g masks numbers { m.glyph with
        hints
        counterMasks := m.glyph.counterMasks ++ (maskNumbers g).elim [] fun masked =>
          g.counterMasks.map ((m.declare numbers hints).readMask ctx masked) } := by
  obtain ⟨hdeclared, -⟩ := hm.declare hadd
  have hcount := hintCount_declare hm h.horizontal_declares h.vertical_declares hadd
  rw [h.program_eq, masksFit_append, masksFit_append, masksFit_append] at hfits
  obtain ⟨⟨⟨-, hfitsCounters⟩, hfitsContours⟩, -⟩ := hfits
  have hrun := run_declarations levels hversion hm h.horizontal_declares h.vertical_declares hadd
    hfitsCounters
  generalize hcounters : (maskNumbers g).elim [] (fun masked =>
    g.counterMasks.map ((m.declare numbers hints).readMask ctx masked)) = counters at hrun ⊢
  have hready : ((m.declare numbers hints).addCounters counters).Ready ctx :=
    (hm.ready.declare numbers hints).addCounters counters
  have horigin : (default : Point α).Agree default := ⟨Scalar.agree_zero, Scalar.agree_zero⟩
  obtain ⟨hfollow, hdraws⟩ := traces_follow hversion h.traces_ok horigin hdense
  have hdrawn : ((m.declare numbers hints).addCounters counters).Drawn masked {} default := by
    refine ⟨?_, ?_, hm.pending⟩
    · show m.builder.Agree masked {}
      rw [hm.builder]
      exact ⟨Figure.agree_empty, rfl, rfl⟩
    · show m.position.Agree default
      rw [hm.position]
      exact horigin
  obtain ⟨m', hrun', honly, hbuilder⟩ := run_contours levels options hversion hready
    hdrawn horigin hmasks (hcount.symm ▸ hfitsContours) hfollow
    ((endInstructions (α := α) ctx.version).flatMap (·.toBytes ctx.version))
  obtain ⟨m'', ending, hending, hsame⟩ := run_ending levels (honly.ready hready)
  have hclosing : m'.IsClosing masked g masks numbers { m.glyph with
      hints
      counterMasks := m.glyph.counterMasks ++ counters } :=
    ⟨honly.diagnostics.trans hm.diagnostics, honly.declared.trans hdeclared, honly.glyph,
      hdraws masks _ ▸ hbuilder⟩
  refine ⟨m'', ending, ?_, ?_⟩
  · rw [h.program_eq, List.flatMap_append, List.flatMap_append, List.append_assoc, hrun, hrun',
      hending]
  · rcases hsame with rfl | rfl
    · exact hclosing
    · exact ⟨hclosing.diagnostics, hclosing.declared, hclosing.glyph, hclosing.builder⟩

end Machine

end Letterform.Charstring
