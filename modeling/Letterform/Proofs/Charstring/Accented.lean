import Letterform.Proofs.Charstring.Calls
import Letterform.Proofs.Charstring.HintRoundTrip
import Letterform.Proofs.Charstring.Plain
import Letterform.Proofs.Outline.Component

/-!
# Accented characters

Type 1 has an operator for accented characters, and Type 2 gives them where the charstring ends.
They are written in the same way in CFF2, which has no operator for the end any more.
-/

namespace Letterform

open Scalar (IsFixed OnGrid)

variable {α : Type} [Scalar α]

def Glyph.IsAccented (g : Glyph α) (base accent : UInt8) (dx dy : α) : Prop :=
  (g.components == [.ofCode base 0 0, .ofCode accent dx dy]) = true

instance (g : Glyph α) (base accent : UInt8) (dx dy : α) :
    Decidable (g.IsAccented base accent dx dy) := inferInstanceAs (Decidable (_ = true))

theorem Glyph.IsAccented.components {g : Glyph α} {base accent : UInt8} {dx dy : α}
    (h : g.IsAccented base accent dx dy) :
    ∃ c c', g.components = [c, c'] ∧ (c == .ofCode base 0 0) = true ∧
      (c' == .ofCode accent dx dy) = true := by
  unfold Glyph.IsAccented at h
  generalize g.components = components at h
  rcases components with _ | ⟨c, _ | ⟨c', _ | ⟨c'', components⟩⟩⟩
  · simp at h
  · simp at h
  · exact ⟨c, c', rfl, by simpa using h⟩
  · simp at h

omit [Scalar α] in
theorem Glyph.contours_eq_nil {g : Glyph α} (h : g.hasContours = false) : g.contours = [] := by
  rw [Glyph.hasContours, Bool.not_eq_false', List.all_eq_true] at h
  refine List.flatMap_eq_nil_iff.mpr fun f hf => ?_
  have hempty : f.contours.isEmpty = true := h f hf
  rw [Array.isEmpty_iff.mp hempty]
  rfl

namespace Charstring

/-- The offsets that a dialect can hold: whole numbers in Type 1, the grid otherwise. -/
def IsHeld [LawfulScalar α] (version : Version) (a : α) : Prop :=
  if version = .type1 then ∃ n : ℤ, IsFixed a (65536 * n) else OnGrid a

variable {g : Glyph α} {base accent : UInt8} {dx dy : α}

-- ---------------------------------------------------------------------------
-- Operands
-- ---------------------------------------------------------------------------

theorem components_written (g : Glyph α) : (written g).components = g.components := by
  unfold written
  split_ifs <;> rfl

/-- The components of an accented character, with offsets that stand for the same numbers. -/
theorem components_beq [LawfulScalar α] (hg : g.IsAccented base accent dx dy) {dx' dy' : α}
    {m n : ℤ} (hdx : IsFixed dx m) (hdx' : IsFixed dx' m) (hdy : IsFixed dy n)
    (hdy' : IsFixed dy' n) :
    ([.ofCode base 0 0, .ofCode accent dx' dy'] == g.components) = true := by
  obtain ⟨c, c', hcomponents, hc, hc'⟩ := hg.components
  have hzero := Scalar.isFixed_zero (α := α)
  have hbase := Component.beq_ofCode hc hzero hzero hzero hzero
  have haccent := Component.beq_ofCode hc' hdx hdx' hdy hdy'
  simp [hcomponents, hbase, haccent]

theorem ofGlyph_accented (hg : g.IsAccented base accent dx dy) {accented : Option (Accented α)}
    (h : Accented.ofGlyph g = .ok accented) :
    ∃ dx' dy', accented = some ⟨base, accent, dx', dy'⟩ ∧ (dx' == dx) = true ∧
      (dy' == dy) = true ∧ g.hasContours = false := by
  obtain ⟨c, c', hcomponents, hc, hc'⟩ := hg.components
  obtain ⟨htarget, htransform, -⟩ := Component.beq_iff.mp hc
  obtain ⟨htarget', htransform', -⟩ := Component.beq_iff.mp hc'
  obtain ⟨-, -, -, -, hdx, hdy⟩ := Affine.beq_iff.mp htransform'
  obtain ⟨target, transform, pointMatch, flags⟩ := c
  obtain ⟨target', transform', pointMatch', flags'⟩ := c'
  obtain rfl : target = .code base := htarget
  obtain rfl : target' = .code accent := htarget'
  unfold Accented.ofGlyph at h
  simp only [hcomponents] at h
  split_ifs at h with hplain
  cases h
  simp only [Bool.and_eq_true, Bool.not_eq_true'] at hplain
  exact ⟨_, _, rfl, hdx, hdy, hplain.2⟩

theorem Accented.operands_ok {a : Accented α} {version : Version} {operands : List α}
    (h : a.operands version = .ok operands) :
    ∃ dx dy, coordinate version a.dx = .ok dx ∧ coordinate version a.dy = .ok dy ∧
      operands = [dx, dy, Scalar.ofInt a.base.toNat, Scalar.ofInt a.accent.toNat] := by
  obtain ⟨dx, hdx, h⟩ := bind_ok.mp h
  obtain ⟨dy, hdy, h⟩ := bind_ok.mp h
  exact ⟨dx, dy, hdx, hdy, (pure_ok.mp h).symm⟩

example : ((⟨97, 194, 120, 30⟩ : Accented Float).operands .type2).toOption =
    some [120, 30, 97, 194] := by decide +kernel

section

variable [LawfulScalar α]

theorem Operand.toInt32_reread_byte (version : Version) (b : UInt8) :
    Scalar.toInt32 (reread version (Scalar.ofInt b.toNat : α)) = b.toNat := by
  have hb := b.toNat_lt
  have hfixed : IsFixed (Scalar.ofInt b.toNat : α) (65536 * b.toNat) :=
    Scalar.isFixed_ofInt (by rw [abs_lt]; omega)
  have hreread : IsFixed (reread version (Scalar.ofInt b.toNat : α)) (65536 * b.toNat) := by
    by_cases hversion : version = .type1
    · rw [hversion]
      exact isFixed_reread_whole hfixed (by omega) (by omega)
    · exact isFixed_reread hversion hfixed (by omega) (by omega)
  exact hreread.toInt32 (by omega) (by omega)

end

theorem reread_coordinate {version : Version} {a b held : Float} (hheld : IsHeld version held)
    (ha : (a == held) = true) (h : coordinate version a = .ok b) :
    ∃ n : ℤ, |n| < 2 ^ 31 ∧ IsFixed held n ∧ IsFixed (Operand.reread version b) n := by
  unfold IsHeld at hheld
  split_ifs at hheld with hversion
  · obtain ⟨n, hn⟩ := hheld
    rw [hversion] at h ⊢
    obtain ⟨hb, hlow, hhigh⟩ := coordinate_whole (LawfulScalar.denotes_of_beq ha hn) h
    exact ⟨_, by rw [abs_lt]; omega, hn, Operand.isFixed_reread_whole hb (by omega) (by omega)⟩
  · obtain ⟨k, hk⟩ := hheld
    obtain ⟨hbound, hb⟩ := agree_coordinate hversion (LawfulScalar.denotes_of_beq ha hk) h
    rw [abs_lt] at hbound
    exact ⟨_, by rw [abs_lt]; omega, hk, Operand.isFixed_reread hversion hb (by omega) (by omega)⟩

-- ---------------------------------------------------------------------------
-- Execution
-- ---------------------------------------------------------------------------

namespace Machine

variable {ctx : Context α} {m : Machine α} (levels : ℕ)

/-- The machine with the components of an accented character. -/
def withAccented (m : Machine α) (base accent : UInt8) (dx dy : α) : Machine α :=
  { m with
    glyph := { m.glyph with
      components := m.glyph.components ++ [.ofCode base 0 0, .ofCode accent dx dy] } }

structure IsBare (ctx : Context α) (m : Machine α) : Prop where
  ready : m.Ready ctx
  diagnostics : m.diagnostics = #[]
  components : m.glyph.components = []

omit [Scalar α] in
theorem Ready.room (h : m.Ready ctx) {operands : List α} (hlength : operands.length ≤ 13) :
    m.stack.size + operands.length ≤ m.stack.limit := by
  have := ctx.version.le_stackLimit
  rw [h.size, h.limit]
  omega

theorem Ready.withAccented (h : m.Ready ctx) (base accent : UInt8) (dx dy : α) :
    (m.withAccented base accent dx dy).Ready ctx := ⟨h.empty, h.limit, h.width, h.flex⟩

variable [LawfulScalar α]

theorem characterCode_reread (m : Machine α) (version : Version) (b : UInt8) :
    m.characterCode (Operand.reread version (Scalar.ofInt b.toNat)) = (b, m) := by
  have hb := b.toNat_lt
  unfold characterCode
  rw [Operand.toInt32_reread_byte]
  dsimp only
  rw [if_pos (by omega), Int.toNat_natCast, UInt8.ofNat_toNat]

theorem addAccented_reread (m : Machine α) (version : Version) (base accent : UInt8) (dx dy : α) :
    m.addAccented (Operand.reread version (Scalar.ofInt base.toNat))
      (Operand.reread version (Scalar.ofInt accent.toNat)) dx dy =
        m.withAccented base accent dx dy := by
  unfold addAccented
  rw [characterCode_reread]
  dsimp only
  rw [characterCode_reread]
  rfl

/-- Type 2 gives the components where the charstring ends. -/
theorem run_endchar_accented (hversion : ctx.version = .type2) (hready : m.Ready ctx)
    (base accent : UInt8) (dx dy : α) :
    m.run ctx levels ((Instruction.operation .endchar
        [dx, dy, Scalar.ofInt base.toNat, Scalar.ofInt accent.toNat]).toBytes ctx.version) =
      .ok (m.withAccented base accent (Operand.reread ctx.version dx)
        (Operand.reread ctx.version dy), .finished) := by
  have hsettled : m.settled = m := settled_eq (hready.width.resolve_right (absurd hversion))
  have hend : (m.load ([dx, dy, Scalar.ofInt base.toNat, Scalar.ofInt accent.toNat].map
      (Operand.reread ctx.version))).endCharacter ctx = m.withAccented base accent
        (Operand.reread ctx.version dx) (Operand.reread ctx.version dy) := by
    unfold endCharacter
    rw [if_pos hversion, hready.takeWidth_load, hsettled]
    dsimp only
    rw [hready.operands_load]
    dsimp only [List.map]
    rw [addAccented_reread]
    exact (hready.withAccented base accent _ _).clear_withStack rfl
  rw [Instruction.toBytes, run_operands ctx levels _ _ m (hready.room (by simp)),
    ← List.append_nil (Opcode.toBytes _), run_endchar ctx levels (by simp [hversion]), hend]

/-- Type 1 has an operator for them, with the side bearing of the accent. -/
theorem run_seac (hversion : ctx.version = .type1) (hready : m.Ready ctx) (base accent : UInt8)
    (bearing dx dy : α) :
    m.run ctx levels ((Instruction.operation .seac
        [bearing, dx, dy, Scalar.ofInt base.toNat, Scalar.ofInt accent.toNat]).toBytes ctx.version) =
      .ok (m.withAccented base accent
        (Operand.reread ctx.version dx + m.origin.x - Operand.reread ctx.version bearing)
        (Operand.reread ctx.version dy), .returned) := by
  have hevaluate : (m.load ([bearing, dx, dy, Scalar.ofInt base.toNat,
      Scalar.ofInt accent.toNat].map (Operand.reread ctx.version))).evaluate ctx .seac =
        .ok (m.withAccented base accent
          (Operand.reread ctx.version dx + m.origin.x - Operand.reread ctx.version bearing)
          (Operand.reread ctx.version dy)) := by
    unfold evaluate
    dsimp only
    rw [hready.operands_load]
    dsimp only [List.map]
    rw [addAccented_reread]
    exact congrArg Except.ok ((hready.withAccented base accent _ _).clear_withStack rfl)
  have hknown : Operator.seac.isKnownTo ctx.version = true := by
    rw [hversion]
    rfl
  have hrun := run_operation ctx levels hknown rfl
    [bearing, dx, dy, Scalar.ofInt base.toNat, Scalar.ofInt accent.toNat] [] m
    (hready.room (by simp))
  rw [List.append_nil, hevaluate] at hrun
  exact hrun.trans (run_nil _)

theorem finish_withAccented (hm : m.IsBare ctx) (hg : g.IsAccented base accent dx dy) {x y : α}
    {k l : ℤ} (hdx : IsFixed dx k) (hx : IsFixed x k) (hdy : IsFixed dy l) (hy : IsFixed y l) :
    ((m.withAccented base accent x y).finish ctx).diagnostics = [] ∧
      (((m.withAccented base accent x y).finish ctx).glyph.components == g.components) = true := by
  refine ⟨congrArg Array.toList hm.diagnostics, ?_⟩
  show (m.glyph.components ++ [.ofCode base 0 0, .ofCode accent x y] == g.components) = true
  rw [hm.components, List.nil_append]
  exact components_beq hg hdx hx hdy hy

/-- CFF2 has nothing of the kind. -/
theorem run_endchar_unknown (hversion : ctx.version = .cff2) (hready : m.Ready ctx)
    {operands : List α} (hlength : operands.length ≤ 13) :
    m.run ctx levels ((Instruction.operation .endchar operands).toBytes ctx.version) =
      (m.load (operands.map (Operand.reread ctx.version))).halt
        (.unsupportedOperator .endchar ctx.version) := by
  obtain ⟨b, rest, hbytes, hread⟩ := Operator.endchar.read_opcode (α := α) ctx.version
  rw [Instruction.toBytes, run_operands ctx levels _ _ m (hready.room hlength), hbytes,
    run_of_read (by simpa using hread []), execute_unknown (by rw [hversion]; decide)]
  rfl

end Machine

-- ---------------------------------------------------------------------------
-- Decoding
-- ---------------------------------------------------------------------------

section

variable [LawfulScalar α] {ctx ctx' : Context α} {options : EncodeOptions α} {a : Accented α}
  {bytes : List UInt8}

omit [LawfulScalar α] in
/-- Only in CFF2 can there be nothing at the beginning that is read. -/
theorem begins_accented {version : Version} (hversion : version ≠ .type1)
    {horizontal vertical : List (List α)}
    (hh : Declares version (g.hints.declared .horizontal) horizontal)
    (hv : Declares version (g.hints.declared .vertical) vertical) {operands : List α}
    (hlength : operands.length = 4) {program : List (Instruction α)}
    (hprogram : program = stemInstructions g .horizontal horizontal ++
      stemInstructions g .vertical vertical ++ counterInstructions g ++
        [.operation .endchar operands]) :
    Begins version program ∨
      version ≠ .type2 ∧ program = [.operation .endchar operands] := by
  obtain hbegins | ⟨rfl, rfl, hnone⟩ := begins_declarations hversion hh hv
    [.operation .endchar operands]
  · exact .inl (hprogram ▸ hbegins)
  replace hprogram : program = [.operation .endchar operands] := by
    rw [hprogram, counterInstructions, hnone]
    rfl
  by_cases htype2 : version = .type2
  · refine .inl (.inl ⟨_, _, _, hprogram, rfl, ?_, ?_, ?_, ?_⟩)
    all_goals simp [htype2, hlength, Operator.isKnownTo, Operator.hasWidth, Version.stackLimit]
  · exact .inr ⟨htype2, hprogram⟩

/-- Type 2 and CFF2 write the accented character after the declarations, which are read without
complaint. -/
theorem decode_before (hversion : ctx.version ≠ .type1) (hversion' : ctx'.version = ctx.version)
    (hcontext : ctx'.hintCount = 0 ∨ g.counterMasks = []) (hhints : g.hints.count ≤ StemHints.limit)
    (haccented : Accented.ofGlyph (written g) = .ok (some a))
    (hcontours : (written g).hasContours = false) (h : encode ctx options g = .ok bytes) :
    ∃ (m : Machine α) (operands : List α), m.IsBare ctx' ∧
      a.operands ctx'.version = .ok operands ∧
      decode ctx' bytes = Machine.result ctx' (m.run ctx' callLimit
        ((Instruction.operation .endchar operands).toBytes ctx'.version)) := by
  obtain ⟨_, final, heq, hfinal, rfl⟩ := encode_parts h
  obtain rfl := Except.ok.inj (heq.symm.trans haccented)
  obtain ⟨program, hprogram, hcase⟩ := instructionsFor_ok hversion hfinal
  rw [← hversion'] at hversion hprogram hcase ⊢
  obtain ⟨horizontal, vertical, ts, ending, hh, hv, hts, hprogram, operands, hoperands, rfl⟩ :=
    instructions_ok hprogram
  rw [traces, Glyph.contours_eq_nil hcontours] at hts
  obtain rfl : ts = [] := (pure_ok.mp hts).symm
  rw [contours, List.append_nil] at hprogram
  have hlength : operands.length = 4 := by
    obtain ⟨dx, dy, -, -, rfl⟩ := Accented.operands_ok hoperands
    rfl
  obtain hbegins | ⟨htype2, rfl⟩ := begins_accented hversion hh hv hlength hprogram
  · obtain ⟨m, hm, hdecode⟩ := decode_written hversion hbegins hcase
    obtain ⟨numbers, hints, hadd⟩ := exists_addAll_stems (g := written g)
      (by rwa [hints_written]) m (length_readStems hh) (length_readStems hv)
    have hfits : MasksFit (ctx'.hintCount + (written g).hints.order.length)
        (counterInstructions (written g)) := by
      rcases hcontext with hnone | hnone
      · rw [hnone, Nat.zero_add]
        exact masksFit_counters _
      · rw [counterInstructions_eq_nil (by rw [counterMasks_written, hnone])]
        exact List.forall_mem_nil _
    have hrun := Machine.run_declarations callLimit hversion hm hh hv hadd hfits
      ((Instruction.operation .endchar operands).toBytes ctx'.version)
    rw [hdecode, hprogram, List.flatMap_append, List.flatMap_singleton, hrun]
    exact ⟨_, operands, ⟨(hm.ready.declare numbers hints).addCounters _, hm.diagnostics,
      hm.components⟩, hoperands, rfl⟩
  · obtain rfl := hcase.resolve_right (htype2 ·.1)
    refine ⟨Machine.start ctx', operands, ⟨⟨rfl, rfl, .inr htype2, rfl⟩, rfl, rfl⟩, hoperands, ?_⟩
    rw [decode_eq, List.flatMap_singleton]

/-- Type 1 writes it after the metrics and the stems. -/
theorem decode_before_type1 (hversion : ctx.version = .type1) (hversion' : ctx'.version = .type1)
    (hhints : g.hints.count ≤ StemHints.limit)
    (haccented : Accented.ofGlyph (written g) = .ok (some a)) (h : encode ctx options g = .ok bytes) :
    ∃ (m : Machine α) (bearing : α) (operands : List α), m.IsBare ctx' ∧
      m.origin.x = Operand.reread .type1 bearing ∧ a.operands .type1 = .ok operands ∧
      decode ctx' bytes = Machine.result ctx' (m.run ctx' callLimit
        ((Instruction.operation .seac (bearing :: operands)).toBytes ctx'.version)) := by
  obtain ⟨_, program, heq, hprogram, rfl⟩ := encode_parts h
  obtain rfl := Except.ok.inj (heq.symm.trans haccented)
  rw [instructionsFor, hversion] at hprogram
  obtain ⟨bearing, width, horizontal, vertical, rest, hparts, operands, hoperands, rfl⟩ :=
    plainInstructions_parts hprogram
  obtain ⟨numbers, hints, hadd⟩ := exists_addAll_stems (g := written g)
    (by rwa [hints_written]) (Machine.bearingAt ctx' bearing width)
    hparts.horizontal_declares.length_readStems hparts.vertical_declares.length_readStems
  obtain ⟨m, hm, hrun⟩ := Machine.run_beginning callLimit hversion' hparts hadd
  have hbare : m.IsBare ctx' ∧ m.origin.x = Operand.reread .type1 bearing := by
    have hready := (Machine.ready_bearingAt hversion' bearing width).declare numbers hints
    rcases hm with rfl | rfl
    · exact ⟨⟨hready, rfl, rfl⟩, rfl⟩
    · exact ⟨⟨hready.settled, rfl, rfl⟩, rfl⟩
  refine ⟨m, bearing, operands, hbare.1, hbare.2, hoperands, ?_⟩
  rw [decode_eq, hversion, ← hversion', hrun, List.flatMap_singleton]

end

-- ---------------------------------------------------------------------------
-- Doubles
-- ---------------------------------------------------------------------------

/-- In Type 1 and Type 2 an accented character comes back. In CFF2 it is written with an operator
that this dialect has not, and nothing of it is read. -/
theorem decode_encode_accented {ctx ctx' : Context Float} {options : EncodeOptions Float}
    {g : Glyph Float} {base accent : UInt8} {dx dy : Float} (hversion : ctx'.version = ctx.version)
    (hcontext : ctx'.hintCount = 0 ∨ g.counterMasks = []) (hhints : g.hints.count ≤ StemHints.limit)
    (hg : g.IsAccented base accent dx dy) (hdx : IsHeld ctx.version dx)
    (hdy : IsHeld ctx.version dy) {bytes : List UInt8} (h : encode ctx options g = .ok bytes) :
    if ctx.version = .cff2 then
      (decode ctx' bytes).diagnostics = [.unsupportedOperator .endchar .cff2] ∧
        (decode ctx' bytes).glyph.components = []
    else
      (decode ctx' bytes).diagnostics = [] ∧
        ((decode ctx' bytes).glyph.components == g.components) = true := by
  have hwritten : (written g).IsAccented base accent dx dy := by
    rwa [Glyph.IsAccented, components_written]
  obtain ⟨_, _, haccented, -, -⟩ := encode_parts h
  obtain ⟨dx', dy', rfl, hdx', hdy', hcontours⟩ := ofGlyph_accented hwritten haccented
  cases hv : ctx.version with
  | type1 =>
    rw [hv] at hdx hdy
    obtain ⟨m, bearing, operands, hm, horigin, hoperands, hdecode⟩ :=
      decode_before_type1 hv (hversion.trans hv) hhints haccented h
    obtain ⟨x, y, hx, hy, rfl⟩ := Accented.operands_ok hoperands
    obtain ⟨k, hk, hdxk, hxk⟩ := reread_coordinate hdx hdx' hx
    obtain ⟨l, -, hdyl, hyl⟩ := reread_coordinate hdy hdy' hy
    obtain ⟨n, hlow, hhigh, hbearing⟩ := Operand.exists_reread_whole bearing
    -- The side bearing of the accent is the one of the glyph.
    have hsum := (hxk.add hbearing (by rw [abs_lt] at hk ⊢; omega)).sub hbearing
      (by rw [abs_lt] at hk ⊢; omega)
    rw [add_sub_cancel_right] at hsum
    rw [if_neg nofun, hdecode, Machine.run_seac callLimit (hversion.trans hv) hm.ready, horigin,
      hversion, hv]
    exact Machine.finish_withAccented hm hg hdxk hsum hdyl hyl
  | type2 =>
    obtain ⟨m, operands, hm, hoperands, hdecode⟩ :=
      decode_before (by rw [hv]; nofun) hversion hcontext hhints haccented hcontours h
    rw [hversion] at hoperands
    obtain ⟨x, y, hx, hy, rfl⟩ := Accented.operands_ok hoperands
    obtain ⟨k, -, hdxk, hxk⟩ := reread_coordinate hdx hdx' hx
    obtain ⟨l, -, hdyl, hyl⟩ := reread_coordinate hdy hdy' hy
    rw [if_neg nofun, hdecode, Machine.run_endchar_accented callLimit (hversion.trans hv) hm.ready,
      hversion]
    exact Machine.finish_withAccented hm hg hdxk hxk hdyl hyl
  | cff2 =>
    obtain ⟨m, operands, hm, hoperands, hdecode⟩ :=
      decode_before (by rw [hv]; nofun) hversion hcontext hhints haccented hcontours h
    obtain ⟨x, y, -, -, rfl⟩ := Accented.operands_ok hoperands
    rw [if_pos rfl, hdecode, Machine.run_endchar_unknown callLimit (hversion.trans hv) hm.ready
      (by simp), hversion, hv]
    refine ⟨?_, hm.components⟩
    show (m.diagnostics.push _).toList = _
    rw [hm.diagnostics]
    rfl

def aacute : Glyph Float :=
  { Glyph.empty .postscript with
    components := [.ofCode 97 0 0, .ofCode 194 120 (-0.5)], advanceWidth := 444 }

theorem decode_encode_aacute :
    (∃ bytes, encode ({} : Context Float) default aacute = .ok bytes ∧
      (decode ({} : Context Float) bytes).diagnostics = [] ∧
        ((decode ({} : Context Float) bytes).glyph.components == aacute.components) = true) ∧
    ∃ bytes, encode ({ version := .cff2 } : Context Float) default aacute = .ok bytes ∧
      (decode ({ version := .cff2 } : Context Float) bytes).diagnostics =
          [.unsupportedOperator .endchar .cff2] ∧
        (decode ({ version := .cff2 } : Context Float) bytes).glyph.components = [] := by
  have haccented : aacute.IsAccented 97 194 120 (-0.5) := by decide +kernel
  have hhints : aacute.hints.count ≤ StemHints.limit := by decide
  have hgrid (a : Float) (ha : Scalar.snap a = a ∧ (Scalar.snap a == Scalar.snap a) = true ∧
      ¬ coordinateLimit < Scalar.abs (Scalar.snap a)) : OnGrid a :=
    ha.1 ▸ (agree_snap ha.2.1 ha.2.2).onGrid.1
  have hheld (version : Version) (hversion : version ≠ .type1) :
      IsHeld version (120 : Float) ∧ IsHeld version (-0.5 : Float) := by
    rw [IsHeld, IsHeld, if_neg hversion, if_neg hversion]
    exact ⟨hgrid 120 (by decide +kernel), hgrid (-0.5) (by decide +kernel)⟩
  obtain ⟨hdx, hdy⟩ := hheld .type2 nofun
  obtain ⟨hdx', hdy'⟩ := hheld .cff2 nofun
  obtain ⟨bytes, h⟩ := exists_ok (show (encode ({} : Context Float) default aacute).toOption.isSome
    = true by decide +kernel)
  obtain ⟨bytes', h'⟩ := exists_ok (show (encode ({ version := .cff2 } : Context Float) default
    aacute).toOption.isSome = true by decide +kernel)
  exact ⟨⟨bytes, h, decode_encode_accented rfl (.inl rfl) hhints haccented hdx hdy h⟩,
    bytes', h', decode_encode_accented rfl (.inl rfl) hhints haccented hdx' hdy' h'⟩

end Charstring

end Letterform
