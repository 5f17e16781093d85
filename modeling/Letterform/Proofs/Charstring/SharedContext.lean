import Letterform.Proofs.Charstring.HintRoundTrip
import Letterform.Proofs.Charstring.Calls

/-!
# Stems of the context

A context may bring stems that have been declared before the charstring. Reading a mask makes room
for them, writing one does not. So what is written in a context is read in the same context if the
masks over all stems are no longer than those over the stems of the glyph.
-/

namespace Letterform.Charstring

/-- In doubles, each mask that is written has the bytes that the stems of the glyph take. It has
those that the stems of the context and of the glyph take together if these are as many, and then
the outline comes back without diagnostics in the context that it was written in. -/
theorem decode_encode_sharedContext {ctx : Context Float} {options : EncodeOptions Float}
    {g : Glyph Float} (hversion : ctx.version ≠ .type1) (hcomponents : g.components = [])
    (hhints : g.hints.count ≤ StemHints.limit) (hdense : (written g).IsDense) {bytes : List UInt8}
    (h : encode ctx options g = .ok bytes) :
    ∃ program, instructionsFor ctx options (written g) none = .ok program ∧
      bytes = program.flatMap (·.toBytes ctx.version) ∧
      (∀ mask ∈ writtenMasks program, mask.length = HintMask.byteLength g.hints.count) ∧
      ((∀ mask ∈ writtenMasks program,
          mask.length = HintMask.byteLength (ctx.hintCount + g.hints.count)) ↔
        writtenMasks program = [] ∨ HintMask.byteLength (ctx.hintCount + g.hints.count) =
          HintMask.byteLength g.hints.count) ∧
      ((∀ mask ∈ writtenMasks program,
          mask.length = HintMask.byteLength (ctx.hintCount + g.hints.count)) →
        (decode ctx bytes).diagnostics = [] ∧
          ((decode ctx bytes).glyph.figures.map Figure.withoutMasks ==
            (singleFigure ((written g).snapped fun _ => none)).map Figure.withoutMasks) = true) := by
  obtain ⟨program, hprogram, hbytes, hwritten, hdecode⟩ :=
    decode_encode_of_masksFit hversion hcomponents hhints h hdense
  rw [StemHints.length_order] at hwritten hdecode
  refine ⟨program, hprogram, hbytes, hwritten, ⟨fun hfits => ?_, ?_⟩, hdecode⟩
  · rcases hmasks : writtenMasks program with _ | ⟨mask, masks⟩
    · exact .inl rfl
    · have hmem : mask ∈ writtenMasks program := hmasks ▸ List.mem_cons_self
      exact .inr ((hfits mask hmem).symm.trans (hwritten mask hmem))
  · rintro (hnone | hsame)
    · rw [hnone]
      exact List.forall_mem_nil _
    · exact fun mask hmem => (hwritten mask hmem).trans hsame.symm

/-- A triangle with a stem that a mask at its first point selects. -/
def stemmed : Glyph Float :=
  let b : Builder Float := (({} : Builder Float).moveTo ⟨10, 20⟩).mark (some (HintMask.ofList [0]))
  { Glyph.empty .postscript with
    figures := [((b.lineTo ⟨110, 20⟩).lineTo ⟨60, 90⟩).close.finish]
    hints := (StemHints.addAll [(.horizontal, 20, 70)] {}).elim {} Prod.snd }

def stemmedCode : List UInt8 := [159, 209, 18, 19, 128, 149, 159, 21, 239, 6, 89, 209, 5, 14]

theorem encode_stemmed (k : ℕ) :
    encode { hintCount := k } default stemmed = .ok stemmedCode := by
  have hcubic : stemmed.hasCurves .quadratic = false := by decide +kernel
  have hh : stemmed.hints.declared .horizontal = [⟨20, 70, 0⟩] := by
    rw [StemHints.declared, show stemmed.hints.onAxis .horizontal = [⟨20, 70, 0⟩] by decide +kernel]
    simp
  have hv : stemmed.hints.declared .vertical = [] := by
    rw [StemHints.declared, show stemmed.hints.onAxis .vertical = [] by decide +kernel]
    simp
  refine ok_of_toOption ?_
  simp only [encode, hcubic, Bool.false_eq_true, if_false, instructionsFor, instructions, hh, hv]
  decide +kernel

/-- Seven more stems leave a mask of one byte as it is. -/
theorem decode_encode_stemmed : ∃ program,
      instructionsFor ({ hintCount := 7 } : Context Float) default (written stemmed) none =
        .ok program ∧
      stemmedCode = program.flatMap (·.toBytes .type2) ∧
      (∀ mask ∈ writtenMasks program, mask.length = HintMask.byteLength stemmed.hints.count) ∧
      ((∀ mask ∈ writtenMasks program,
          mask.length = HintMask.byteLength (7 + stemmed.hints.count)) ↔
        writtenMasks program = [] ∨ HintMask.byteLength (7 + stemmed.hints.count) =
          HintMask.byteLength stemmed.hints.count) ∧
      ((∀ mask ∈ writtenMasks program,
          mask.length = HintMask.byteLength (7 + stemmed.hints.count)) →
        (decode ({ hintCount := 7 } : Context Float) stemmedCode).diagnostics = [] ∧
          ((decode ({ hintCount := 7 } : Context Float) stemmedCode).glyph.figures.map Figure.withoutMasks ==
            (singleFigure ((written stemmed).snapped fun _ => none)).map Figure.withoutMasks) =
              true) :=
  decode_encode_sharedContext (by decide) rfl (by decide) (by decide +kernel) (encode_stemmed 7)

/-- With eight more stems, the first byte of the move is read as a part of the mask. -/
theorem decode_encode_stemmed_misread :
    encode { hintCount := 8 } default stemmed = .ok stemmedCode ∧ (written stemmed).IsDense ∧
      (decode ({ hintCount := 8 } : Context Float) stemmedCode).diagnostics ≠ [] ∧
      (decode ({ hintCount := 8 } : Context Float) stemmedCode).glyph.figures = [] := by
  have hrun : Machine.Executes ({ hintCount := 8 } : Context Float) callLimit stemmedCode
      (Machine.start { hintCount := 8 }) _ :=
    .goesOn rfl rfl <| .goesOn rfl rfl <| .goesOn rfl rfl <| .goesOn rfl rfl <|
      .goesOn rfl rfl <| .stops rfl (fun _ _ hmask => nomatch hmask) rfl
  refine ⟨encode_stemmed 8, by decide +kernel, ?_⟩
  rw [decode, hrun.run_eq]
  decide +kernel

end Letterform.Charstring
