import Letterform.Proofs.Charstring.HintRoundTrip
import Letterform.Proofs.Charstring.PlottedTraces

/-!
# Programs of glyphs that have been read

A glyph that has been read has its stems under their places in the order of declaration, and its
masks with them. Written again it has the same program, but for operands that may differ in the sign
of zero, which is not written.
-/

namespace Letterform.Charstring

open Scalar (IsFixed)

variable {α : Type} [Scalar α] {version : Version} {options : EncodeOptions α}

-- ---------------------------------------------------------------------------
-- Instructions that are written alike
-- ---------------------------------------------------------------------------

def Operand.Alike (version : Version) (a b : α) : Prop := write version a = write version b

theorem Operand.alike_of_isFixed [LawfulScalar α] (hversion : version ≠ .type1) {a b : α} {n : ℤ}
    (ha : IsFixed a n) (hb : IsFixed b n) (hn : |n| < 2 ^ 52) : Alike version a b := by
  have hwhole : Scalar.isWhole a = Scalar.isWhole b := by rw [ha.isWhole, hb.isWhole]
  have hint : Scalar.toInt32 a = Scalar.toInt32 b :=
    (LawfulScalar.truncate _ _ ha).trans (LawfulScalar.truncate _ _ hb).symm
  have hfixed : Scalar.toFixed a = Scalar.toFixed b := by
    rw [ha.toFixed_saturated hn, hb.toFixed_saturated hn]
  unfold Alike write
  simp only [if_neg hversion, hwhole, hint, hfixed]

namespace Instruction

/-- Two instructions have the same operator and operands with the same bytes. -/
inductive Alike (version : Version) : Instruction α → Instruction α → Prop
  | refl (i : Instruction α) : Alike version i i
  | operation (op : Operator) {xs ys : List α} :
    List.Forall₂ (Operand.Alike version) xs ys → Alike version (.operation op xs) (.operation op ys)

variable {i j : Instruction α} {program program' : List (Instruction α)}

theorem Alike.toBytes (h : Alike version i j) : i.toBytes version = j.toBytes version := by
  cases h with
  | refl => rfl
  | operation op h =>
    rw [Instruction.toBytes, Instruction.toBytes]
    congr 1
    induction h with
    | nil => rfl
    | cons hab _ ih => rw [List.flatMap_cons, List.flatMap_cons, ih, show _ = _ from hab]

theorem toBytes_of_alike (h : List.Forall₂ (Alike version) program program') :
    program.flatMap (·.toBytes version) = program'.flatMap (·.toBytes version) := by
  induction h with
  | nil => rfl
  | cons hij _ ih => rw [List.flatMap_cons, List.flatMap_cons, ih, hij.toBytes]

theorem alike_refl (program : List (Instruction α)) :
    List.Forall₂ (Alike version) program program := List.forall₂_same.mpr fun i _ => .refl i

theorem alike_insertWidth (width : α) (h : List.Forall₂ (Alike version) program program') :
    List.Forall₂ (Alike version) (insertWidth width program) (insertWidth width program') := by
  induction h with
  | nil => exact .nil
  | @cons i j rest rest' hij hrest ih =>
    cases hij with
    | refl =>
      cases i with
      | mask isCounter stems stemCount => exact .cons (.refl _) ih
      | operation op operands =>
        rw [insertWidth, insertWidth]
        split_ifs
        · exact .cons (.refl _) hrest
        · exact .cons (.refl _) ih
    | operation op h =>
      rw [insertWidth, insertWidth]
      split_ifs
      · exact .cons (.operation op (.cons rfl h)) hrest
      · exact .cons (.operation op h) ih

end Instruction

-- ---------------------------------------------------------------------------
-- Stems
-- ---------------------------------------------------------------------------

section Stems

variable [LawfulScalar α] {f : ℕ → ℕ} {stems stems' : List (Stem α)}

theorem coordinate_congr (hversion : version ≠ .type1) {a b c : α} {k : ℤ}
    (ha : IsFixed a (64 * k)) (hb : IsFixed b (64 * k)) (h : coordinate version a = .ok c) :
    |k| < 2 ^ 25 ∧ IsFixed c (64 * k) ∧ ∃ d, coordinate version b = .ok d ∧ IsFixed d (64 * k) := by
  obtain ⟨hk, hc⟩ := agree_coordinate hversion ha h
  obtain ⟨rfl, hle⟩ := coordinate_ok hversion h
  have hd := hb.snap (by omega)
  refine ⟨hk, hc, Scalar.snap b, ?_, hd⟩
  have hlimit := isFixed_coordinateLimit (α := α)
  rw [hlimit.lt_iff hc.abs, ← hlimit.lt_iff hd.abs] at hle
  rw [coordinate, if_neg hversion]
  exact if_neg hle

theorem stemOperands_congr (hversion : version ≠ .type1) {edge edge' : α} {k : ℤ}
    (hedge : IsFixed edge (64 * k)) (hedge' : IsFixed edge' (64 * k)) (hk : |k| < 2 ^ 26)
    (hagrees : List.Forall₂ (Stem.AgreesAs f) stems' stems) {operands : List α}
    (h : stemOperands version 0 edge stems = .ok operands) :
    ∃ operands', stemOperands version 0 edge' stems' = .ok operands' ∧
      List.Forall₂ (Operand.Alike version) operands operands' := by
  induction hagrees generalizing edge edge' k operands with
  | nil =>
    cases h
    exact ⟨[], rfl, .nil⟩
  | @cons s t stems' stems hst _ ih =>
    obtain ⟨start, hstart, h⟩ := bind_ok.mp h
    obtain ⟨width, hwidth, h⟩ := bind_ok.mp h
    obtain ⟨rest, hrest, h⟩ := bind_ok.mp h
    cases h
    obtain ⟨i, -, hsi, hti⟩ := hst.start
    obtain ⟨j, -, hsj, htj⟩ := hst.width
    obtain ⟨hi, hfirst, start', hstart', hfirst'⟩ := coordinate_congr hversion
      (LawfulScalar.sub_zero hti) (LawfulScalar.sub_zero hsi) hstart
    obtain ⟨hj, hsecond, width', hwidth', hsecond'⟩ := coordinate_congr hversion htj hsj hwidth
    rw [abs_lt] at hi hj hk
    have hnext {a b : α} (ha : IsFixed a (64 * i)) (hb : IsFixed b (64 * j)) :
        IsFixed (a + b) (64 * (i + j)) := by
      rw [mul_add]
      exact ha.add hb (by rw [abs_lt]; omega)
    have hdelta {a b : α} (ha : IsFixed a (64 * i)) (hb : IsFixed b (64 * k)) :
        IsFixed (a - b) (64 * (i - k)) := by
      rw [mul_sub]
      exact ha.sub hb (by rw [abs_lt]; omega)
    obtain ⟨rest', hrest', halike⟩ := ih (hnext hfirst hsecond) (hnext hfirst' hsecond')
      (by rw [abs_lt]; omega) hrest
    refine ⟨(start' - edge') :: width' :: rest', ?_, .cons ?_ (.cons ?_ halike)⟩
    · simp only [stemOperands, bind, Except.bind, hstart', hwidth', hrest']
      rfl
    · exact Operand.alike_of_isFixed hversion (hdelta hfirst hedge) (hdelta hfirst' hedge')
        (by rw [abs_lt]; omega)
    · exact Operand.alike_of_isFixed hversion hsecond hsecond' (by rw [abs_lt]; omega)

theorem forall₂_pieces {β γ : Type} {r : β → γ → Prop} {xs : List β} {ys : List γ} (size : ℕ)
    (h : List.Forall₂ r xs ys) : List.Forall₂ (List.Forall₂ r) (pieces size xs) (pieces size ys) := by
  rw [pieces, pieces, h.length_eq]
  exact List.forall₂_map_left_iff.mpr (List.forall₂_map_right_iff.mpr
    (List.forall₂_same.mpr fun i _ => List.forall₂_take size (List.forall₂_drop (i * size) h)))

theorem declareStems_congr (hversion : version ≠ .type1) {runs : List (List α)}
    (h : Declares version stems runs) (hagrees : List.Forall₂ (Stem.AgreesAs f) stems' stems)
    (axis : Axis) (masked : Bool) :
    ∃ instructions, declareStems version axis masked stems' = .ok instructions ∧
      List.Forall₂ (Instruction.Alike version) (runs.map (.operation (.stems axis masked)))
        instructions := by
  have hpieces := forall₂_pieces ((version.stackLimit - 1) / 2) hagrees
  have hruns := h.operands
  unfold declareStems
  generalize pieces ((version.stackLimit - 1) / 2) stems = parts at hpieces hruns
  generalize pieces ((version.stackLimit - 1) / 2) stems' = parts' at hpieces ⊢
  clear h hagrees
  induction hruns generalizing parts' with
  | nil =>
    cases hpieces
    exact ⟨[], rfl, .nil⟩
  | @cons part operands parts runs hoperands _ ih =>
    obtain _ | ⟨hpart, hpieces⟩ := hpieces
    rename_i part' parts'
    obtain ⟨operands', hoperands', halike⟩ := stemOperands_congr hversion (k := 0)
      Scalar.isFixed_zero Scalar.isFixed_zero (by norm_num) hpart hoperands
    obtain ⟨instructions, hinstructions, hrest⟩ := ih _ hpieces
    refine ⟨.operation (.stems axis masked) operands' :: instructions, ?_,
      .cons (.operation _ halike) hrest⟩
    rw [List.mapM_cons, hoperands', hinstructions]
    rfl

end Stems

-- ---------------------------------------------------------------------------
-- Contours
-- ---------------------------------------------------------------------------

/-- Masks that are handed on over other stems are written as they were. -/
structure Rewrites (declared declared' : Option (List ℕ)) (masks : HintMask → Option HintMask) :
    Prop where
  isNone : declared'.isNone = declared.isNone
  total : declared.isNone = false → ∀ mask, (masks mask).isNone = false
  before : ∀ mask, maskBefore (α := α) declared' (masks mask) = maskBefore declared (some mask)

section Contours

variable {declared declared' : Option (List ℕ)} {masks : HintMask → Option HintMask}

omit [Scalar α] in
theorem Rewrites.maskBefore_bind (h : Rewrites (α := α) declared declared' masks)
    (mask : Option HintMask) :
    maskBefore (α := α) declared' (mask.bind masks) = maskBefore declared mask := by
  cases mask with
  | none => cases declared' <;> cases declared <;> rfl
  | some mask => exact h.before mask

theorem choose_conveyed (options : EncodeOptions α) (masks : HintMask → Option HintMask)
    (limit : ℕ) (legs : List (Leg α)) :
    Command.choose options limit (legs.map fun l => { l with mask := l.mask.bind masks }) =
      Command.choose options limit legs := by
  have hflex : Command.ofFlex? options (legs.map fun l => { l with mask := l.mask.bind masks }) =
      Command.ofFlex? options legs := by
    rcases legs with _ | ⟨⟨s, _ | ⟨c1, c2⟩, p, mask⟩, _ | ⟨⟨s', _ | ⟨c3, c4⟩, e, mask'⟩, legs⟩⟩ <;> rfl
  have hsteps : (legs.map fun l => { l with mask := l.mask.bind masks }).map Leg.step =
      legs.map Leg.step := List.map_map
  unfold Command.choose
  rw [hflex, hsteps]

theorem runs_conveyed (h : Rewrites (α := α) declared declared' masks) (limit : ℕ)
    (legs : List (Leg α)) :
    runs options limit declared' (legs.map fun l => { l with mask := l.mask.bind masks }) =
      runs options limit declared legs := by
  induction hn : legs.length using Nat.strong_induction_on generalizing legs with
  | _ n ih =>
    subst hn
    rcases legs with _ | ⟨leg, rest⟩
    · rw [List.map_nil, runs, runs]
    have hrest (k : ℕ) : runs options limit declared' ((rest.map fun l =>
        { l with mask := l.mask.bind masks }).drop k) = runs options limit declared (rest.drop k) := by
      rw [← List.map_drop]
      refine ih _ ?_ (rest.drop k) rfl
      rw [List.length_drop, List.length_cons]
      omega
    have hnone (l : Leg α) : (declared'.isNone || (l.mask.bind masks).isNone) =
        (declared.isNone || l.mask.isNone) := by
      rw [h.isNone]
      cases hd : declared.isNone with
      | true => rfl
      | false =>
        cases l.mask with
        | none => rfl
        | some mask => exact h.total hd mask
    have hwindow : ((rest.map fun l => { l with mask := l.mask.bind masks }).take limit).takeWhile
        (fun l => declared'.isNone || l.mask.isNone) =
          ((rest.take limit).takeWhile fun l => declared.isNone || l.mask.isNone).map
            fun l => { l with mask := l.mask.bind masks } := by
      rw [← List.map_take, List.takeWhile_map]
      congr 2
      exact funext hnone
    have hchoose := choose_conveyed options masks limit
      (leg :: (rest.take limit).takeWhile fun l => declared.isNone || l.mask.isNone)
    rw [List.map_cons] at hchoose ⊢
    rw [runs_window, runs_window, hwindow]
    dsimp only
    rw [hchoose, h.maskBefore_bind, hrest]
    rfl

theorem contours_conveyed (options : EncodeOptions α)
    (h : Rewrites (α := α) declared declared' masks) (limit : ℕ) (position : Point α)
    (ts : List (Trace α)) :
    contours options limit declared' position (ts.map (Trace.conveyed masks)) =
      contours options limit declared position ts := by
  induction ts generalizing position with
  | nil => rfl
  | cons t ts ih =>
    have hstop : (t.conveyed masks).stop = t.stop := by
      rw [Trace.stop, Trace.stop, Trace.conveyed, List.getLast?_map]
      cases t.legs.getLast? <;> rfl
    rw [List.map_cons, contours_cons, contours_cons, hstop, ih, Trace.conveyed]
    dsimp only
    rw [runs_conveyed h, h.maskBefore_bind]

end Contours

-- ---------------------------------------------------------------------------
-- Masks of figures
-- ---------------------------------------------------------------------------

def Trace.hasMask (t : Trace α) : Bool := t.mask.isSome || t.legs.any (·.mask.isSome)

/-- Where every knot lies on a contour, a knot has a mask if and only if a contour brings one. -/
theorem any_hasMask {f : Figure α} (h : f.IsTiled f.knots.size) :
    (f.contours.toList.any fun c => (f.trace c).hasMask) = f.knots.any (·.mask.isSome) := by
  have hknots (i : ℕ) (hmask : (f.knot i).mask.isSome = true) :
      f.knots.any (·.mask.isSome) = true := by
    rcases f.knot_eq_or_mem i with heq | hmem
    · rw [heq] at hmask
      cases hmask
    · exact Array.any_eq_true'.mpr ⟨_, hmem, hmask⟩
  rw [Bool.eq_iff_iff, List.any_eq_true]
  constructor
  · rintro ⟨c, -, hmask⟩
    rcases Bool.or_eq_true_iff.mp hmask with hstart | hlegs
    · exact hknots c.first hstart
    · obtain ⟨l, hl, hmask⟩ := List.any_eq_true.mp hlegs
      obtain ⟨s, hs, rfl⟩ := List.mem_map.mp hl
      obtain ⟨_, j, -, hstop⟩ := Figure.exists_knots (f.strokes_eq c ▸ hs)
      unfold Stroke.leg at hmask
      dsimp only at hmask
      split_ifs at hmask
      · cases hmask
      · exact hknots j (hstop ▸ hmask)
  · intro hmask
    obtain ⟨i, hi, hmask⟩ := Array.any_eq_true.mp hmask
    have hknot : f.knot i = f.knots[i] := by
      rw [Figure.knot, Array.getD_eq_getD_getElem?, Array.getElem?_eq_getElem hi]
      rfl
    rw [← hknot] at hmask
    obtain ⟨c, hc, hfirst, hlast⟩ := h.tiles.exists_mem (Nat.zero_le i) hi
    refine ⟨c, hc, Bool.or_eq_true_iff.mpr ?_⟩
    rcases hfirst.eq_or_lt with rfl | hlt
    · exact .inl hmask
    · -- The leg that leads to the knot brings its mask.
      refine .inr (List.any_eq_true.mpr ⟨(f.knot (i - 1)).leg (f.knot i), ?_, hmask⟩)
      rw [(h.traced c hc).legs]
      refine List.mem_append_left _ (List.mem_map.mpr ⟨i - 1, ?_, ?_⟩)
      · rw [List.mem_range'_1]
        omega
      · rw [Nat.sub_add_cancel (by omega)]

theorem hasMasks_eq {g : Glyph α} (h : ∀ f ∈ g.figures, f.IsTiled f.knots.size) :
    hasMasks g = (!g.counterMasks.isEmpty || g.traces.any Trace.hasMask) := by
  unfold hasMasks Glyph.traces Glyph.contours
  congr 1
  generalize g.figures = figures at h
  induction figures with
  | nil => rfl
  | cons f figures ih =>
    obtain ⟨hf, h⟩ := List.forall_mem_cons.mp h
    rw [List.flatMap_cons, List.map_append, List.any_append, ← ih h, List.any_cons, ← any_hasMask hf,
      List.map_map, List.any_map]
    rfl

-- ---------------------------------------------------------------------------
-- Glyphs that have been read
-- ---------------------------------------------------------------------------

/-- The masks of a glyph as they come back: over the places of its stems in the order of
declaration, if they are written. -/
def readMasks (g : Glyph α) (mask : HintMask) : Option HintMask :=
  (maskNumbers g).map (mask.renumber ·.idxOf?)

/-- A glyph that has been read after it was written: its stems under their places in the order of
declaration, and its masks with them. -/
structure Reads (g g' : Glyph α) [LawfulScalar α] : Prop where
  hints : ∀ axis, List.Forall₂ (Stem.AgreesAs g.hints.order.idxOf) (g'.hints.onAxis axis)
    (g.hints.onAxis axis)
  counterMasks : g'.counterMasks = g.counterMasks.filterMap (readMasks g)
  traces : g'.traces = g.traces.map (Trace.conveyed (readMasks g))

section Reads

variable {g g' : Glyph α}

omit [Scalar α] in
theorem readMasks_of_some {numbers : List ℕ} (h : maskNumbers g = some numbers) (mask : HintMask) :
    readMasks g mask = some (mask.renumber numbers.idxOf?) := by
  rw [readMasks, h]
  rfl

omit [Scalar α] in
theorem readMasks_of_none (h : maskNumbers g = none) : readMasks g = fun _ => none := by
  funext mask
  rw [readMasks, h]
  rfl

omit [Scalar α] in
theorem hasMask_conveyed_none (t : Trace α) : (t.conveyed fun _ => none).hasMask = false := by
  simp [Trace.hasMask, Trace.conveyed]

omit [Scalar α] in
theorem hasMask_conveyed {masks : HintMask → Option HintMask}
    (h : ∀ mask, (masks mask).isSome = true) (t : Trace α) :
    (t.conveyed masks).hasMask = t.hasMask := by
  have hmask (mask : Option HintMask) : (mask.bind masks).isSome = mask.isSome := by
    cases mask with
    | none => rfl
    | some mask => exact h mask
  unfold Trace.hasMask Trace.conveyed
  rw [hmask, List.any_map]
  congr 2
  exact funext fun l => hmask l.mask

variable [LawfulScalar α]

theorem Reads.maskNumbers_eq (h : Reads g g') (horderly : g.hints.IsOrderly)
    (htiled : ∀ f ∈ g.figures, f.IsTiled f.knots.size)
    (htiled' : ∀ f ∈ g'.figures, f.IsTiled f.knots.size) :
    maskNumbers g' = (maskNumbers g).map fun numbers => List.range numbers.length := by
  have horder := horderly.order_agreesAs h.hints
  have hsize : g'.hints.order.isEmpty = g.hints.order.isEmpty := by
    rw [horder, Bool.eq_iff_iff, List.isEmpty_iff, List.isEmpty_iff, List.range_eq_nil,
      List.length_eq_zero_iff]
  cases hnumbers : maskNumbers g with
  | none =>
    have hmasks : readMasks g = fun _ => none := readMasks_of_none hnumbers
    have hhas : hasMasks g' = false := by
      rw [hasMasks_eq htiled', h.counterMasks, h.traces, hmasks, List.any_map]
      simp [Function.comp_def, hasMask_conveyed_none]
    rw [maskNumbers, hhas]
    rfl
  | some numbers =>
    have hmasks : readMasks g = fun mask => some (mask.renumber numbers.idxOf?) :=
      funext (readMasks_of_some hnumbers)
    have hhas : hasMasks g' = hasMasks g := by
      rw [hasMasks_eq htiled', hasMasks_eq htiled, h.counterMasks, h.traces, hmasks, List.any_map,
        List.filterMap_eq_map', List.isEmpty_map]
      congr 2
      exact funext fun t => hasMask_conveyed (fun _ => rfl) t
    unfold maskNumbers at hnumbers ⊢
    rw [hhas, hsize]
    split_ifs at hnumbers ⊢
    cases hnumbers
    rw [horder]
    rfl

theorem Reads.rewrites (h : Reads g g') (horderly : g.hints.IsOrderly)
    (htiled : ∀ f ∈ g.figures, f.IsTiled f.knots.size)
    (htiled' : ∀ f ∈ g'.figures, f.IsTiled f.knots.size) :
    Rewrites (α := α) (maskNumbers g) (maskNumbers g') (readMasks g) := by
  rw [h.maskNumbers_eq horderly htiled htiled']
  cases hnumbers : maskNumbers g with
  | none => exact ⟨rfl, nofun, fun _ => rfl⟩
  | some numbers =>
    refine ⟨rfl, fun _ mask => ?_, fun mask => ?_⟩
    · rw [readMasks_of_some hnumbers]
      rfl
    · rw [readMasks_of_some hnumbers]
      simp only [Option.map_some, maskBefore, maskInstruction, HintMask.renumber_idxOf?_range,
        List.length_range]

theorem Reads.counterInstructions_eq (h : Reads g g') (horderly : g.hints.IsOrderly)
    (htiled : ∀ f ∈ g.figures, f.IsTiled f.knots.size)
    (htiled' : ∀ f ∈ g'.figures, f.IsTiled f.knots.size) :
    counterInstructions g' = counterInstructions g := by
  rw [counterInstructions, counterInstructions, h.maskNumbers_eq horderly htiled htiled',
    h.counterMasks]
  cases hnumbers : maskNumbers g with
  | none => rfl
  | some numbers =>
    have hmasks : readMasks g = fun mask => some (mask.renumber numbers.idxOf?) :=
      funext (readMasks_of_some hnumbers)
    rw [hmasks, List.filterMap_eq_map']
    simp only [Option.map_some, List.map_map]
    refine List.map_congr_left fun mask _ => ?_
    simp only [Function.comp_apply, maskInstruction, HintMask.renumber_idxOf?_range,
      List.length_range]

omit [LawfulScalar α] in
theorem instructions_none (g : Glyph α) :
    instructions g none version options =
      (declareStems version .horizontal (maskNumbers g).isSome (g.hints.declared .horizontal) >>=
        fun hstems => declareStems version .vertical (maskNumbers g).isSome
          (g.hints.declared .vertical) >>= fun vstems =>
        Charstring.traces version g >>= fun ts => pure (hstems ++ vstems ++ counterInstructions g ++
          contours options version.stackLimit (maskNumbers g) default ts ++
            endInstructions version)) := rfl

theorem Reads.instructions_alike (hversion : version ≠ .type1) (h : Reads g g')
    (horderly : g.hints.IsOrderly) (htiled : ∀ f ∈ g.figures, f.IsTiled f.knots.size)
    (htiled' : ∀ f ∈ g'.figures, f.IsTiled f.knots.size) {program : List (Instruction α)}
    {horizontal vertical : List (List α)}
    (hparts : Parts version options g program horizontal vertical g.traces)
    (htraces : Charstring.traces version g' = .ok g'.traces) :
    ∃ program', instructions g' none version options = .ok program' ∧
      List.Forall₂ (Instruction.Alike version) program program' := by
  have hnumbers := h.maskNumbers_eq horderly htiled htiled'
  obtain ⟨hstems, hh, halikeH⟩ := declareStems_congr hversion hparts.horizontal_declares
    (horderly.declared_agreesAs h.hints .horizontal).1 .horizontal (maskNumbers g).isSome
  obtain ⟨vstems, hv, halikeV⟩ := declareStems_congr hversion hparts.vertical_declares
    (horderly.declared_agreesAs h.hints .vertical).1 .vertical (maskNumbers g).isSome
  have hpaths := contours_conveyed options (h.rewrites horderly htiled htiled')
    version.stackLimit default g.traces
  have hmasked : (maskNumbers g').isSome = (maskNumbers g).isSome := by
    rw [hnumbers, Option.isSome_map]
  have hprogram : instructions g' none version options =
      .ok (hstems ++ vstems ++ counterInstructions g' ++
        contours options version.stackLimit (maskNumbers g') default g'.traces ++
          endInstructions version) := by
    rw [← hmasked] at hh hv
    simp only [instructions_none, bind, Except.bind, hh, hv, htraces]
    rfl
  refine ⟨_, hprogram, ?_⟩
  rw [hparts.program_eq, h.counterInstructions_eq horderly htiled htiled', h.traces, hpaths]
  refine List.rel_append (List.rel_append (List.rel_append (List.rel_append halikeH halikeV) ?_) ?_) ?_
  · exact Instruction.alike_refl _
  · exact Instruction.alike_refl _
  · exact Instruction.alike_refl _

end Reads

end Letterform.Charstring
