import Letterform.Proofs.Charstring.RoundTrip
import Letterform.Proofs.Hint.Renumbering

/-!
# Hints that are written come back

The stems of a glyph are declared axis by axis in the order of their numbers, and numbered anew as
they are read. Every mask is written and read with these numbers, so it selects the stems that it
selected before.
-/

namespace Letterform

open Scalar (Agree IsFixed OnGrid units)

variable {α : Type} [Scalar α]

/-- No operand of a stem operator reaches 32768 in magnitude. -/
def StemHints.IsDense (version : Charstring.Version) (h : StemHints α) : Prop :=
  ∀ axis, ∀ piece ∈ Charstring.pieces ((version.stackLimit - 1) / 2) (h.declared axis),
    ∀ operands ∈ (Charstring.stemOperands version 0 0 piece).toOption,
      ∀ a ∈ operands, Scalar.abs a < 32768

namespace Charstring

variable [LawfulScalar α] {version : Version}

-- ---------------------------------------------------------------------------
-- Operands
-- ---------------------------------------------------------------------------

theorem agree_coordinate (hversion : version ≠ .type1) {a b : α} {k : ℤ} (ha : IsFixed a (64 * k))
    (h : coordinate version a = .ok b) : |k| < 2 ^ 25 ∧ IsFixed b (64 * k) := by
  have hlimit := isFixed_coordinateLimit (α := α)
  obtain ⟨rfl, hle⟩ := coordinate_ok hversion h
  have hsnap := ha.snap_of_le hlimit hle
  rw [hlimit.lt_iff hsnap.abs, abs_mul, abs_of_pos (show (0 : ℤ) < 64 by norm_num)] at hle
  exact ⟨by omega, hsnap⟩

/-- The operands of stems are read as these stems, wherever the edges before them come out the
same. -/
theorem readAs_stemsFrom (hversion : version ≠ .type1) {edge edge' : α} {k : ℤ}
    (hedge : IsFixed edge (64 * k)) (hedge' : IsFixed edge' (64 * k)) (hk : |k| < 2 ^ 26)
    {stems : List (Stem α)} {operands : List α}
    (h : stemOperands version 0 edge stems = .ok operands)
    (hgrid : ∀ s ∈ stems, OnGrid s.start ∧ OnGrid s.width)
    (hsmall : ∀ a ∈ operands, Scalar.abs a < 32768) :
    List.Forall₂ Stem.ReadAs stems
      (Machine.stemsFrom edge' (operands.map (Operand.reread version))) := by
  induction stems generalizing edge edge' k operands with
  | nil =>
    cases h
    exact .nil
  | cons stem stems ih =>
    obtain ⟨start, hstart, h⟩ := bind_ok.mp h
    obtain ⟨width, hwidth, h⟩ := bind_ok.mp h
    obtain ⟨rest, hrest, h⟩ := bind_ok.mp h
    cases h
    obtain ⟨⟨hs, hw⟩, hgrid⟩ := List.forall_mem_cons.mp hgrid
    obtain ⟨hfirst, hsmall⟩ := List.forall_mem_cons.mp hsmall
    obtain ⟨hsecond, hsmall⟩ := List.forall_mem_cons.mp hsmall
    obtain ⟨i, hi⟩ := hs
    obtain ⟨j, hj⟩ := hw
    have hbefore : IsFixed (stem.start - 0) (64 * i) := LawfulScalar.sub_zero hi
    obtain ⟨hilt, hstart⟩ := agree_coordinate hversion hbefore hstart
    obtain ⟨hjlt, hwidth⟩ := agree_coordinate hversion hj hwidth
    rw [abs_lt] at hk hilt hjlt
    have hdelta : IsFixed (start - edge) (64 * (i - k)) := by
      rw [mul_sub]
      exact hstart.sub hedge (by rw [abs_lt]; omega)
    obtain ⟨l, -, hl, hdelta'⟩ := agree_reread hversion ⟨_, hdelta⟩ hfirst
    obtain rfl : l = i - k := by
      have := hl.unique hdelta
      omega
    obtain ⟨l, -, hl, hwidth'⟩ := agree_reread hversion ⟨j, hwidth⟩ hsecond
    obtain rfl : l = j := by
      have := hl.unique hwidth
      omega
    have hstart' : IsFixed (edge' + Operand.reread version (start - edge)) (64 * i) := by
      have hsum : 64 * i = 64 * k + 64 * (i - k) := by ring
      rw [hsum]
      exact hedge'.add hdelta' (by rw [abs_lt]; omega)
    have hnext {a b : α} (ha : IsFixed a (64 * i)) (hb : IsFixed b (64 * l)) :
        IsFixed (a + b) (64 * (i + l)) := by
      rw [mul_add]
      exact ha.add hb (by rw [abs_lt]; omega)
    refine .cons ⟨⟨i, by rw [abs_lt]; omega, hi, hstart'⟩, l, by rw [abs_lt]; omega, hj, hwidth'⟩ ?_
    exact ih (hnext hstart hwidth) (hnext hstart' hwidth') (by rw [abs_lt]; omega) hrest hgrid hsmall

theorem readAs_readStems (hversion : version ≠ .type1) {stems : List (Stem α)}
    {runs : List (List α)} (h : Declares version stems runs)
    (hgrid : ∀ s ∈ stems, OnGrid s.start ∧ OnGrid s.width)
    (hsmall : ∀ operands ∈ runs, ∀ a ∈ operands, Scalar.abs a < 32768) :
    List.Forall₂ Stem.ReadAs stems (readStems version runs) := by
  have hlimit := version.le_stackLimit
  have hflatten := flatten_pieces (show 0 < (version.stackLimit - 1) / 2 by omega) stems
  have hruns := h.operands
  clear h
  rw [← hflatten] at hgrid ⊢
  generalize pieces ((version.stackLimit - 1) / 2) stems = parts at hruns hgrid ⊢
  induction hruns with
  | nil => exact .nil
  | @cons piece operands parts runs hpiece _ ih =>
    rw [List.flatten_cons] at hgrid ⊢
    obtain ⟨hfirst, hgrid⟩ := List.forall_mem_append.mp hgrid
    obtain ⟨hoperands, hsmall⟩ := List.forall_mem_cons.mp hsmall
    rw [readStems, List.flatMap_cons]
    exact List.rel_append (readAs_stemsFrom hversion Scalar.isFixed_zero (k := 0)
      Scalar.isFixed_zero (by norm_num) hpiece hfirst hoperands) (ih hsmall hgrid)

omit [LawfulScalar α] in
theorem Declares.operands_lt {stems : List (Stem α)} {runs : List (List α)}
    (h : Declares version stems runs)
    (hdense : ∀ piece ∈ pieces ((version.stackLimit - 1) / 2) stems,
      ∀ operands ∈ (stemOperands version 0 0 piece).toOption, ∀ a ∈ operands,
        Scalar.abs a < 32768) :
    ∀ operands ∈ runs, ∀ a ∈ operands, Scalar.abs a < 32768 := by
  intro operands hmem
  obtain ⟨piece, hpiece, hoperands⟩ := exists_of_forall₂ h.operands hmem
  exact hdense piece hpiece operands (by rw [hoperands]; rfl)

-- ---------------------------------------------------------------------------
-- Glyphs
-- ---------------------------------------------------------------------------

variable {ctx : Context α} {options : EncodeOptions α} {g : Glyph α} {program : List (Instruction α)}
  {horizontal vertical : List (List α)} {ts : List (Trace α)}

omit [LawfulScalar α] in
theorem counterMasks_written (g : Glyph α) : (written g).counterMasks = g.counterMasks := by
  unfold written
  split_ifs <;> rfl

theorem Parts.readAs (hversion : ctx.version ≠ .type1)
    (h : Parts ctx.version options g program horizontal vertical ts)
    (hgrid : ∀ axis, ∀ s ∈ g.hints.onAxis axis, OnGrid s.start ∧ OnGrid s.width)
    (hdense : g.hints.IsDense ctx.version) :
    List.Forall₂ Stem.ReadAs (g.hints.declared .horizontal) (readStems ctx.version horizontal) ∧
      List.Forall₂ Stem.ReadAs (g.hints.declared .vertical) (readStems ctx.version vertical) := by
  have hdeclared (axis : Axis) : ∀ s ∈ g.hints.declared axis, OnGrid s.start ∧ OnGrid s.width :=
    fun s hs => hgrid axis s ((g.hints.perm_declared axis).mem_iff.mp hs)
  exact ⟨readAs_readStems hversion h.horizontal_declares (hdeclared .horizontal)
      (h.horizontal_declares.operands_lt (hdense .horizontal)),
    readAs_readStems hversion h.vertical_declares (hdeclared .vertical)
      (h.vertical_declares.operands_lt (hdense .vertical))⟩

theorem readAs_snap {t : Stem α} {s : α × α} (h : t.ReadAs s) :
    t.ReadAs (Scalar.snap s.1 + 0, Scalar.snap s.2) := by
  obtain ⟨⟨i, hi, hstart, hstart'⟩, j, hj, hwidth, hwidth'⟩ := h
  rw [abs_lt] at hi hj
  have hsnap := hstart'.snap (by rw [abs_lt]; omega)
  have hsum := hsnap.add Scalar.isFixed_zero (by rw [abs_lt]; omega)
  rw [add_zero] at hsum
  exact ⟨⟨i, abs_lt.mpr hi, hstart, hsum⟩, j, abs_lt.mpr hj, hwidth,
    hwidth'.snap (by rw [abs_lt]; omega)⟩

omit [LawfulScalar α] in
theorem map_stemAt {m : Machine α} (horigin : m.origin = default) (axis : Axis)
    (stems : List (α × α)) :
    stems.map (m.stemAt axis) =
      (stems.map fun s => (Scalar.snap s.1 + 0, Scalar.snap s.2)).map (axis, ·) := by
  rw [List.map_map]
  refine List.map_congr_left fun s _ => ?_
  unfold Machine.stemAt
  rw [horigin]
  cases axis <;> rfl

/-- The machine adds the stems of a glyph with their places in the order of declaration as
numbers. -/
theorem Parts.addAll_readStems (hversion : ctx.version ≠ .type1)
    (h : Parts ctx.version options g program horizontal vertical ts)
    {stems : List (Axis × α × α)} {ns : List ℕ}
    (hadd : StemHints.addAll stems {} = some (ns, g.hints))
    (hgrid : ∀ axis, ∀ s ∈ g.hints.onAxis axis, OnGrid s.start ∧ OnGrid s.width)
    (hdense : g.hints.IsDense ctx.version) {m : Machine α} (horigin : m.origin = default) :
    ∃ hints, StemHints.addAll ((readStems ctx.version horizontal).map (m.stemAt .horizontal) ++
        (readStems ctx.version vertical).map (m.stemAt .vertical)) {} =
          some (List.range g.hints.count, hints) ∧
      hints.next = g.hints.next ∧
      ∀ axis, List.Forall₂ (Stem.AgreesAs g.hints.order.idxOf) (hints.onAxis axis)
        (g.hints.onAxis axis) := by
  obtain ⟨hh, hv⟩ := h.readAs hversion hgrid hdense
  have hsnap {declared : List (Stem α)} {read : List (α × α)}
      (hread : List.Forall₂ Stem.ReadAs declared read) : List.Forall₂ Stem.ReadAs declared
        (read.map fun s => (Scalar.snap s.1 + 0, Scalar.snap s.2)) :=
    List.forall₂_map_right_iff.mpr (hread.imp fun _ _ => readAs_snap)
  rw [map_stemAt horigin, map_stemAt horigin]
  exact StemHints.addAll_read hadd (hsnap hh) (hsnap hv)

omit [Scalar α] [LawfulScalar α] in
theorem mask_of_hasMasks (h : hasMasks g = false) :
    g.counterMasks = [] ∧ ∀ f ∈ g.figures, ∀ k ∈ f.knots, k.mask = none := by
  rw [hasMasks, Bool.or_eq_false_iff, Bool.not_eq_false', List.isEmpty_iff,
    List.any_eq_false] at h
  refine ⟨h.1, fun f hf k hk => ?_⟩
  have hnone := h.2 f hf
  rw [Bool.not_eq_true, Array.any_eq_false'] at hnone
  exact Option.not_isSome_iff_eq_none.mp (hnone k hk)

theorem onGrid_of_addAll {stems : List (Axis × α × α)} {ns : List ℕ} {h : StemHints α}
    (hadd : StemHints.addAll stems {} = some (ns, h))
    (hgrid : ∀ stem ∈ stems, OnGrid stem.2.1 ∧ OnGrid stem.2.2) (axis : Axis) :
    ∀ s ∈ h.onAxis axis, OnGrid s.start ∧ OnGrid s.width := by
  intro s hs
  rcases StemHints.mem_or_mem_of_addAll hadd hs with hold | hnew
  · cases axis <;> cases hold
  · exact hgrid _ hnew

theorem decode_encode_hints (hversion : ctx.version ≠ .type1) (hcontext : ctx.hintCount = 0)
    (hcomponents : g.components = []) {stems : List (Axis × α × α)} {ns : List ℕ}
    (hadd : StemHints.addAll stems {} = some (ns, g.hints)) (hsome : g.hints.isEmpty = false)
    (hgrid : ∀ stem ∈ stems, OnGrid stem.2.1 ∧ OnGrid stem.2.2)
    (hoperands : g.hints.IsDense ctx.version) (hdense : (written g).IsDense) {bytes : List UInt8}
    (h : encode ctx options g = .ok bytes) :
    (decode ctx bytes).diagnostics = [] ∧
      ((decode ctx bytes).glyph.hints == g.hints.renumber g.hints.order.idxOf) = true ∧
      (∀ axis mask, ((decode ctx bytes).glyph.hints.selected axis
        (mask.renumber g.hints.order.idxOf?) == g.hints.selected axis mask) = true) ∧
      (decode ctx bytes).glyph.counterMasks =
        g.counterMasks.map (·.renumber g.hints.order.idxOf?) ∧
      ((decode ctx bytes).glyph.figures == singleFigure
        ((written g).snapped fun mask => some (mask.renumber g.hints.order.idxOf?))) = true := by
  obtain ⟨program, horizontal, vertical, ts, m, hparts, hm, hdecode⟩ :=
    decode_encoded hversion hcomponents h
  obtain ⟨hints, haddNew, hnext, hagrees⟩ := hparts.addAll_readStems hversion
    (by rw [hints_written]; exact hadd)
    (by rw [hints_written]; exact onGrid_of_addAll hadd hgrid)
    (by rw [hints_written]; exact hoperands) hm.origin
  rw [hints_written] at haddNew hnext hagrees
  obtain ⟨m', ending, hrun, hclosing⟩ := Machine.run_parts callLimit hversion hm hparts
    (by rw [hcontext, Nat.zero_add]; exact hparts.masksFit)
    hdense haddNew True fun _ => rfl
  have hread (mask : HintMask) : (m.declare (List.range g.hints.count) hints).readMask ctx
      g.hints.order mask = mask.renumber g.hints.order.idxOf? := by
    refine Machine.readMask_eq hcontext ?_ mask
    rw [(hm.declare haddNew).1, StemHints.length_order, List.toArray_range]
  have hnumbers : maskNumbers (written g) =
      if hasMasks (written g) then some g.hints.order else none := by
    rw [maskNumbers, hints_written, g.hints.isEmpty_order, hsome, Bool.not_false, Bool.and_true]
  have hcounters : (maskNumbers (written g)).elim [] (fun masked => (written g).counterMasks.map
      ((m.declare (List.range g.hints.count) hints).readMask ctx masked)) =
        g.counterMasks.map (·.renumber g.hints.order.idxOf?) := by
    rw [hnumbers, counterMasks_written]
    split_ifs with hhas
    · exact List.map_congr_left fun mask _ => hread mask
    · rw [← counterMasks_written, (mask_of_hasMasks (Bool.eq_false_iff.mpr hhas)).1]
      rfl
  have hfigure : (written g).snapped ((m.declare (List.range g.hints.count) hints).conveyed ctx
      (maskNumbers (written g))) =
        (written g).snapped fun mask => some (mask.renumber g.hints.order.idxOf?) := by
    rw [hnumbers]
    split_ifs with hhas
    · exact congrArg (written g).snapped (funext fun mask => congrArg some (hread mask))
    · exact Glyph.snapped_congr (mask_of_hasMasks (Bool.eq_false_iff.mpr hhas)).2 _ _
  have hhints : (m'.finish ctx).glyph.hints = hints := by
    show m'.glyph.hints = hints
    rw [hclosing.glyph]
  rw [hdecode m' ending hrun, hhints]
  refine ⟨?_, StemHints.beq_renumber hnext hagrees, StemHints.selected_renumber hagrees,
    ?_, ?_⟩
  · show m'.diagnostics.toList = []
    rw [hclosing.diagnostics]
  · show m'.glyph.counterMasks = _
    rw [hclosing.glyph, hcounters]
    show m.glyph.counterMasks ++ _ = _
    rw [hm.counterMasks, List.nil_append]
  · rw [figures_finish, ← hfigure]
    exact singleFigure_beq hclosing.builder.finish

-- ---------------------------------------------------------------------------
-- Doubles
-- ---------------------------------------------------------------------------

/-- In doubles, the stems of an encoded glyph come back with their places in the order of
declaration as numbers, and every mask of the glyph comes back where it was and selects the same
stems. -/
theorem decode_encode_masks {ctx : Context Float} {options : EncodeOptions Float} {g : Glyph Float}
    (hversion : ctx.version ≠ .type1) (hcontext : ctx.hintCount = 0)
    (hcomponents : g.components = []) {stems : List (Axis × Float × Float)} {ns : List ℕ}
    (hadd : StemHints.addAll stems {} = some (ns, g.hints)) (hsome : g.hints.isEmpty = false)
    (hgrid : ∀ stem ∈ stems, OnGrid stem.2.1 ∧ OnGrid stem.2.2)
    (hoperands : g.hints.IsDense ctx.version) (hdense : (written g).IsDense) {bytes : List UInt8}
    (h : encode ctx options g = .ok bytes) :
    (decode ctx bytes).diagnostics = [] ∧
      ((decode ctx bytes).glyph.hints == g.hints.renumber g.hints.order.idxOf) = true ∧
      (∀ axis mask, ((decode ctx bytes).glyph.hints.selected axis
        (mask.renumber g.hints.order.idxOf?) == g.hints.selected axis mask) = true) ∧
      (decode ctx bytes).glyph.counterMasks =
        g.counterMasks.map (·.renumber g.hints.order.idxOf?) ∧
      ((decode ctx bytes).glyph.figures == singleFigure
        ((written g).snapped fun mask => some (mask.renumber g.hints.order.idxOf?))) = true :=
  decode_encode_hints hversion hcontext hcomponents hadd hsome hgrid hoperands hdense h

def bars : List (Axis × Float × Float) :=
  [(.vertical, 250, 60), (.horizontal, 180, 20), (.vertical, 10, 40.5), (.horizontal, -20, 20),
    (.vertical, 250, 60)]

def barredLeaf : Glyph Float :=
  { leafGlyph with
    hints := (StemHints.addAll bars {}).elim {} Prod.snd
    figures := [leaf.modifyKnot 0 ({ · with mask := some (HintMask.ofList [0, 3]) })]
    counterMasks := [HintMask.ofList [1, 2]] }

theorem declared_barredLeaf :
    barredLeaf.hints.declared .horizontal = [⟨180, 20, 1⟩, ⟨-20, 20, 3⟩] ∧
      barredLeaf.hints.declared .vertical = [⟨250, 60, 0⟩, ⟨10, 40.5, 2⟩] := by
  have hh : barredLeaf.hints.onAxis .horizontal = [⟨-20, 20, 3⟩, ⟨180, 20, 1⟩] := by
    decide +kernel
  have hv : barredLeaf.hints.onAxis .vertical = [⟨10, 40.5, 2⟩, ⟨250, 60, 0⟩] := by
    decide +kernel
  rw [StemHints.declared, StemHints.declared, hh, hv]
  simp [List.mergeSort]

theorem decode_encode_barredLeaf :
    ∃ bytes, encode ({} : Context Float) default barredLeaf = .ok bytes ∧
      (decode ({} : Context Float) bytes).glyph.counterMasks =
        barredLeaf.counterMasks.map (·.renumber barredLeaf.hints.order.idxOf?) ∧
      ((decode ({} : Context Float) bytes).glyph.figures == singleFigure
        ((written barredLeaf).snapped fun mask =>
          some (mask.renumber barredLeaf.hints.order.idxOf?))) = true := by
  obtain ⟨hh, hv⟩ := declared_barredLeaf
  have hcubic : barredLeaf.hasCurves .quadratic = false := by decide +kernel
  have hok : (encode ({} : Context Float) default barredLeaf).toOption.isSome = true := by
    simp only [encode, hcubic, Bool.false_eq_true, if_false, instructionsFor, instructions, hh, hv]
    decide +kernel
  obtain ⟨bytes, h⟩ := exists_ok hok
  have hadd : StemHints.addAll bars {} = some ([0, 1, 2, 3, 0], barredLeaf.hints) := by
    decide +kernel
  have hsnap (a : Float) (ha : Scalar.snap a = a ∧ (Scalar.snap a == Scalar.snap a) = true ∧
      ¬ coordinateLimit < Scalar.abs (Scalar.snap a)) : OnGrid a :=
    ha.1 ▸ Scalar.exists_grid_of_snap ha.2.1 isFixed_coordinateLimit ha.2.2
  have hbars : ∀ stem ∈ bars, ∀ a ∈ [stem.2.1, stem.2.2], Scalar.snap a = a ∧
      (Scalar.snap a == Scalar.snap a) = true ∧
        ¬ coordinateLimit < Scalar.abs (Scalar.snap a) := by
    decide +kernel
  have hgrid (stem) (hstem : stem ∈ bars) : OnGrid stem.2.1 ∧ OnGrid stem.2.2 :=
    ⟨hsnap _ (hbars stem hstem _ (by simp)), hsnap _ (hbars stem hstem _ (by simp))⟩
  have hoperands : barredLeaf.hints.IsDense .type2 := by
    intro axis
    cases axis with
    | horizontal =>
      rw [hh]
      decide +kernel
    | vertical =>
      rw [hv]
      decide +kernel
  have hdense : (written barredLeaf).IsDense := by decide +kernel
  obtain ⟨-, -, -, hcounters, hfigures⟩ := decode_encode_masks (by decide) rfl rfl hadd
    (by decide +kernel) hgrid hoperands hdense h
  exact ⟨bytes, h, hcounters, hfigures⟩

end Charstring

end Letterform
