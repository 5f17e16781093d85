import Letterform.Proofs.Charstring.Drawing
import Letterform.Proofs.Charstring.WrittenMasks

/-!
# Masks are read back

A mask is written with the stems in their order of declaration and read back with the numbers that
the machine has given to these stems.
-/

namespace Letterform.Charstring

variable {α : Type} [Scalar α] {ctx : Context α} {m : Machine α} (levels : ℕ)

namespace Machine

def readMask (ctx : Context α) (m : Machine α) (numbers : List ℕ) (mask : HintMask) : HintMask :=
  (HintMask.ofBytes ((mask.renumber numbers.idxOf?).toBytes numbers.length)).renumber fun bit =>
    if bit < ctx.hintCount then none else m.declared[bit - ctx.hintCount]?

/-- What is read back of a mask, if there are stems that it can select. -/
def conveyed (ctx : Context α) (m : Machine α) (declared : Option (List ℕ)) (mask : HintMask) :
    Option HintMask := declared.map (m.readMask ctx · mask)

omit [Scalar α] in
theorem DrawsOnly.conveyed {m' : Machine α} (h : DrawsOnly m m') (declared : Option (List ℕ)) :
    m'.conveyed ctx declared = m.conveyed ctx declared := by
  unfold Machine.conveyed Machine.readMask
  rw [h.declared]

omit [Scalar α] in
theorem DrawsOnly.hintCount {m' : Machine α} (h : DrawsOnly m m') :
    m'.hintCount ctx = m.hintCount ctx := by
  rw [Machine.hintCount, Machine.hintCount, h.declared]

theorem run_maskBefore (hversion : ctx.version ≠ .type1) (hready : m.Ready ctx)
    (hpending : m.pendingMask = none) {declared : Option (List ℕ)} {mask : Option HintMask}
    (hfits : MasksFit (m.hintCount ctx) (maskBefore (α := α) declared mask)) (tail : List UInt8) :
    ∃ m' : Machine α,
      m.run ctx levels
          ((maskBefore (α := α) declared mask).flatMap (·.toBytes ctx.version) ++ tail) =
        m'.run ctx levels tail ∧
      DrawsOnly m m' ∧ m'.builder = m.builder ∧ m'.position = m.position ∧
      m'.pendingMask = mask.bind (m.conveyed ctx declared) := by
  rcases declared with _ | numbers
  · exact ⟨m, rfl, .refl m, rfl, rfl, by rw [hpending]; cases mask <;> rfl⟩
  rcases mask with _ | mask
  · exact ⟨m, rfl, .refl m, rfl, rfl, hpending⟩
  refine ⟨{ m with
    widthTaken := m.widthTaken || true
    pendingMask := m.conveyed ctx (some numbers) mask }, ?_, ⟨_, _, _, _, true, rfl⟩, rfl, rfl, rfl⟩
  rw [maskBefore, List.flatMap_singleton, maskInstruction,
    run_maskInstruction ctx levels false _ hversion tail m hready.empty
      ((masksFit_mask false numbers mask).mp hfits).1, Bool.or_true]
  rfl

def addCounters (m : Machine α) (masks : List HintMask) : Machine α :=
  { m with glyph := { m.glyph with counterMasks := m.glyph.counterMasks ++ masks } }

omit [Scalar α] in
theorem Ready.addCounters (h : m.Ready ctx) (masks : List HintMask) :
    (m.addCounters masks).Ready ctx := ⟨h.empty, h.limit, h.width, h.flex⟩

theorem run_counters (hversion : ctx.version ≠ .type1) (hready : m.Ready ctx)
    (hwidth : m.widthTaken = true) {numbers : List ℕ} {masks : List HintMask}
    (hfits : MasksFit (m.hintCount ctx) (masks.map (maskInstruction (α := α) true numbers)))
    (tail : List UInt8) :
    m.run ctx levels ((masks.map (maskInstruction (α := α) true numbers)).flatMap
        (·.toBytes ctx.version) ++ tail) =
      (m.addCounters (masks.map (m.readMask ctx numbers))).run ctx levels tail := by
  induction masks generalizing m with
  | nil =>
    have hsame : m.addCounters [] = m := by simp [Machine.addCounters]
    rw [List.map_nil, List.map_nil, hsame]
    rfl
  | cons mask masks ih =>
    obtain ⟨hlength, hfits⟩ := (masksFit_mask true numbers mask).mp hfits
    have hstep : m.run ctx levels ((maskInstruction (α := α) true numbers mask).toBytes ctx.version ++
          ((masks.map (maskInstruction (α := α) true numbers)).flatMap (·.toBytes ctx.version) ++
            tail)) =
        (m.addCounters [m.readMask ctx numbers mask]).run ctx levels
          ((masks.map (maskInstruction (α := α) true numbers)).flatMap (·.toBytes ctx.version) ++
            tail) := by
      have hsettled : ({ m with widthTaken := true } : Machine α) = m := settled_eq hwidth
      rw [maskInstruction, run_maskInstruction ctx levels true _ hversion _ m hready.empty hlength,
        hsettled]
      rfl
    have hrest := ih (hready.addCounters [m.readMask ctx numbers mask]) hwidth hfits
    have hsame : (m.addCounters [m.readMask ctx numbers mask]).addCounters
        (masks.map ((m.addCounters [m.readMask ctx numbers mask]).readMask ctx numbers)) =
          m.addCounters ((mask :: masks).map (m.readMask ctx numbers)) := by
      simp [Machine.addCounters, readMask]
    rw [List.map_cons, List.flatMap_cons, List.append_assoc, hstep, hrest, hsame]

omit [Scalar α] in
/-- Where the stems are numbered in their order of declaration, a mask comes back as it was
written. -/
theorem readMask_eq (hcontext : ctx.hintCount = 0) {numbers : List ℕ}
    (hdeclared : m.declared = Array.range numbers.length) (mask : HintMask) :
    m.readMask ctx numbers mask = mask.renumber numbers.idxOf? := by
  ext n
  have hbit (k : ℕ) : (if k < ctx.hintCount then none else m.declared[k - ctx.hintCount]?) =
      if k < numbers.length then some k else none := by
    rw [hcontext, hdeclared, if_neg (Nat.not_lt_zero k)]
    simp [Array.getElem?_range]
  rw [Bool.eq_iff_iff, readMask, HintMask.contains_renumber]
  simp only [hbit, HintMask.contains_ofBytes_toBytes]
  constructor
  · rintro ⟨k, hk, heq⟩
    simp only [Bool.and_eq_true] at hk
    split_ifs at heq
    cases heq
    exact hk.2
  · intro hn
    have hlt : n < numbers.length := by
      obtain ⟨k, -, hk⟩ := HintMask.contains_renumber.mp hn
      exact (List.idxOf?_eq_some_iff.mp hk).1
    exact ⟨n, by simp [hlt, hn], by simp [hlt]⟩

end Machine

end Letterform.Charstring
