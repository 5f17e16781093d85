import Letterform.Proofs.Record.Composite
import Letterform.Proofs.Record.Depth
import Letterform.Proofs.Record.RoundTrip

/-!
# The statistics of a font

Whatever an encoder is given, in whatever order, its statistics are the greatest ones of the records
that it has written. A simple record counts for what is read from it, a composite one for its
components and for what it is flattened to.
-/

namespace Letterform

namespace Maxima

def fields : List (Maxima → ℕ) :=
  [points, contours, compositePoints, compositeContours, componentElements, componentDepth,
    sizeOfInstructions]

theorem eq_of_fields {m n : Maxima} (h : ∀ field ∈ fields, field m = field n) : m = n := by
  simp only [fields, List.forall_mem_cons] at h
  obtain ⟨h1, h2, h3, h4, h5, h6, h7, -⟩ := h
  cases m
  cases n
  congr

theorem field_merge {field : Maxima → ℕ} (h : field ∈ fields) (m n : Maxima) :
    field (m.merge n) = max (field m) (field n) := by
  simp only [fields, List.mem_cons, List.not_mem_nil, or_false] at h
  rcases h with rfl | rfl | rfl | rfl | rfl | rfl | rfl <;> rfl

theorem merge_empty (m : Maxima) : m.merge {} = m := by
  simp [merge]

end Maxima

namespace Record

variable {α : Type} [Scalar α]

-- ---------------------------------------------------------------------------
-- Calls
-- ---------------------------------------------------------------------------

/-- A glyph that an encoder is given, with its number and the font around it. -/
structure Call (α : Type) where
  id : GlyphId
  glyph : Glyph α
  source : GlyphSource α

namespace Encoder

def result (e : Encoder α) (c : Call α) : Except (EncodeError α) (List UInt8) :=
  (e.encode c.id c.glyph c.source).1

def after (e : Encoder α) (calls : List (Call α)) : Encoder α :=
  calls.foldl (fun e c => (e.encode c.id c.glyph c.source).2) e

end Encoder

/-- A call returns a record that is not empty, and these are the statistics of its glyph. -/
inductive Counts (e : Encoder α) (c : Call α) : Maxima → Prop
  | simple {bytes : List UInt8} :
    c.glyph.components = [] ∨ c.glyph.isMixed = true → e.result c = .ok bytes → bytes ≠ [] →
    Counts e c
      { points := Maxima.saturate (decode bytes : Decoded Error α).glyph.numberedPoints.length
        contours := Maxima.saturate (decode bytes : Decoded Error α).glyph.contourCount
        sizeOfInstructions :=
          Maxima.saturate (decode bytes : Decoded Error α).glyph.instructions.length }
  /-- The components of a composite record, and what they are flattened to, with quadratic curves
  in place of cubic ones. -/
  | composite {bytes : List UInt8} {flat : Glyph α} {depth : ℕ} :
    c.glyph.components ≠ [] → c.glyph.isMixed = false → e.result c = .ok bytes → bytes ≠ [] →
    c.glyph.flatten c.id c.source = .ok flat → c.source.HasDepth c.glyph depth →
    Counts e c
      { compositePoints := Maxima.saturate (quadratic flat e.accuracy).numberedPoints.length
        compositeContours := Maxima.saturate (quadratic flat e.accuracy).contourCount
        componentElements := Maxima.saturate c.glyph.components.length
        componentDepth := Maxima.saturate depth
        sizeOfInstructions := Maxima.saturate c.glyph.instructions.length }

variable {e e' : Encoder α} {c : Call α} {s s' : Maxima} {written : Written}

theorem result_eq : e.result c =
    (write e.accuracy c.id c.glyph c.source).map (·.bytes) := by
  unfold Encoder.result Encoder.encode
  cases write e.accuracy c.id c.glyph c.source <;> rfl

theorem Counts.exists_result (h : Counts e c s) : ∃ bytes, e.result c = .ok bytes ∧ bytes ≠ [] := by
  cases h with
  | simple _ hresult hne => exact ⟨_, hresult, hne⟩
  | composite _ _ hresult hne => exact ⟨_, hresult, hne⟩

theorem Counts.unique (h : Counts e c s) (h' : Counts e c s') : s = s' := by
  have hkind (hsimple : c.glyph.components = [] ∨ c.glyph.isMixed = true)
      (hne : c.glyph.components ≠ []) (hmixed : c.glyph.isMixed = false) : False := by
    rcases hsimple with hnil | hmixed'
    · exact hne hnil
    · rw [hmixed] at hmixed'
      cases hmixed'
  cases h with
  | simple hsimple hresult _ =>
    cases h' with
    | simple _ hresult' _ =>
      rw [hresult] at hresult'
      cases hresult'
      rfl
    | composite hne hmixed => exact (hkind hsimple hne hmixed).elim
  | composite hne hmixed _ _ hflat hdepth =>
    cases h' with
    | simple hsimple => exact (hkind hsimple hne hmixed).elim
    | composite _ _ _ _ hflat' hdepth' =>
      rw [hflat] at hflat'
      cases hflat'
      rw [hdepth.unique hdepth']

theorem Counts.of_accuracy (haccuracy : e.accuracy = e'.accuracy) (h : Counts e c s) :
    Counts e' c s := by
  have hresult : e.result c = e'.result c := by rw [result_eq, result_eq, haccuracy]
  cases h with
  | simple hsimple h hne => exact .simple hsimple (hresult ▸ h) hne
  | composite hne hmixed h hne' hflat hdepth =>
    rw [haccuracy]
    exact .composite hne hmixed (hresult ▸ h) hne' hflat hdepth

-- ---------------------------------------------------------------------------
-- One call
-- ---------------------------------------------------------------------------

theorem padded_ne_nil {bytes : List UInt8} (h : bytes ≠ []) : padded bytes ≠ [] := by
  obtain ⟨rest, hrest⟩ := exists_padded bytes
  rw [hrest]
  exact List.append_ne_nil_of_left_ne_nil h rest

omit [Scalar α] in
theorem SimpleRecord.length_endsFrom (start : ℕ) (contours : List (List (OutlinePoint α))) :
    (SimpleRecord.endsFrom start contours).length = contours.length := by
  induction contours generalizing start with
  | nil => rfl
  | cons contour rest ih => rw [SimpleRecord.endsFrom, List.length_cons, ih, List.length_cons]

theorem length_outlines (g : Glyph α) : g.outlines.length = g.contourCount := List.length_map _

theorem writeSimple_ok [LawfulScalar α] {accuracy : α} {g : Glyph α}
    (h : writeSimple accuracy g = .ok written) :
    (written.bytes = [] ∧ written.statistics = {}) ∨
      (written.bytes ≠ [] ∧ written.statistics =
        { points :=
            Maxima.saturate (decode written.bytes : Decoded Error α).glyph.numberedPoints.length
          contours := Maxima.saturate (decode written.bytes : Decoded Error α).glyph.contourCount
          sizeOfInstructions :=
            Maxima.saturate (decode written.bytes : Decoded Error α).glyph.instructions.length }) := by
  obtain ⟨record, hrecord, h⟩ := bind_ok.mp h
  cases record with
  | none =>
    cases h
    exact .inl ⟨rfl, rfl⟩
  | some r =>
    cases h
    have hread := isReadBack_toBytes hrecord
    obtain ⟨hpoints, hends, hinstructions, -⟩ := SimpleRecord.ofGlyph_ok hrecord
    refine .inr ⟨?_, ?_⟩
    · exact padded_ne_nil (by simp [BigEndian.encode_succ])
    · dsimp only
      rw [hread.numberedPoints, hread.contourCount, hread.instructions, hinstructions, hpoints,
        hends, SimpleRecord.length_endsFrom, length_outlines, SimpleRecord.length_steppedAll,
        List.length_map, List.length_map]

theorem writeComposite_ok {accuracy : α} {id : GlyphId} {g : Glyph α} {source : GlyphSource α}
    (h : writeComposite accuracy id g source = .ok written) :
    written.bytes ≠ [] ∧ ∃ flat depth, g.flatten id source = .ok flat ∧ source.HasDepth g depth ∧
      written.statistics =
        { compositePoints := Maxima.saturate (quadratic flat accuracy).numberedPoints.length
          compositeContours := Maxima.saturate (quadratic flat accuracy).contourCount
          componentElements := Maxima.saturate g.components.length
          componentDepth := Maxima.saturate depth
          sizeOfInstructions := Maxima.saturate g.instructions.length } := by
  unfold writeComposite at h
  dsimp only at h
  split at h
  · cases h
  · obtain ⟨flat, hflat, h⟩ := bind_ok.mp h
    obtain ⟨components, -, h⟩ := bind_ok.mp h
    obtain ⟨bounds, -, h⟩ := bind_ok.mp h
    obtain ⟨depth, hdepth, h⟩ := bind_ok.mp h
    cases h
    obtain ⟨hle, hdepth⟩ := hasDepth_of_depth hdepth
    have hsaturate : Maxima.saturate depth = depth := min_eq_left (hle.trans (by decide))
    refine ⟨padded_ne_nil (by simp [BigEndian.encode_succ]), flat, depth, mapError_ok.mp hflat,
      hdepth, ?_⟩
    rw [hsaturate]
    rfl

theorem counts_of_write [LawfulScalar α]
    (h : write e.accuracy c.id c.glyph c.source = .ok written) :
    (written.bytes = [] ∧ written.statistics = {}) ∨ Counts e c written.statistics := by
  have hresult : e.result c = .ok written.bytes := by rw [result_eq, h]; rfl
  have hsimple {g : Glyph α} (hkind : c.glyph.components = [] ∨ c.glyph.isMixed = true)
      (h : writeSimple e.accuracy g = .ok written) :
      (written.bytes = [] ∧ written.statistics = {}) ∨ Counts e c written.statistics := by
    refine (writeSimple_ok h).imp_right ?_
    rintro ⟨hne, hstatistics⟩
    rw [hstatistics]
    exact .simple hkind hresult hne
  unfold write at h
  split at h
  next hempty => exact hsimple (.inl (by simpa using hempty)) h
  next hempty =>
    obtain ⟨-, -, h⟩ := bind_ok.mp h
    split at h
    next hmixed =>
      obtain ⟨flat, -, h⟩ := bind_ok.mp h
      exact hsimple (.inr hmixed) h
    next hmixed =>
      obtain ⟨hne, flat, depth, hflat, hdepth, hstatistics⟩ := writeComposite_ok h
      rw [hstatistics]
      exact .inr (.composite (by simpa using hempty) (by simpa using hmixed) hresult hne hflat
        hdepth)

theorem exists_counts_iff [LawfulScalar α] (e : Encoder α) (c : Call α) :
    (∃ s, Counts e c s) ↔ ∃ bytes, e.result c = .ok bytes ∧ bytes ≠ [] := by
  constructor
  · rintro ⟨s, hs⟩
    exact hs.exists_result
  · rintro ⟨bytes, hresult, hne⟩
    rw [result_eq] at hresult
    cases h : write e.accuracy c.id c.glyph c.source with
    | error error =>
      rw [h] at hresult
      cases hresult
    | ok written =>
      rw [h] at hresult
      cases hresult
      rcases counts_of_write h with ⟨hnil, -⟩ | hcounts
      · exact absurd hnil hne
      · exact ⟨_, hcounts⟩

theorem encode_statistics [LawfulScalar α] (e : Encoder α) (c : Call α) :
    (∃ s, Counts e c s ∧
      (e.encode c.id c.glyph c.source).2 = { e with maxima := e.maxima.merge s }) ∨
      (∀ s, ¬ Counts e c s) ∧ (e.encode c.id c.glyph c.source).2 = e := by
  have hnone (h : ∀ bytes, e.result c = .ok bytes → bytes = []) (s : Maxima) : ¬ Counts e c s := by
    intro hs
    obtain ⟨bytes, hresult, hne⟩ := hs.exists_result
    exact hne (h bytes hresult)
  rw [result_eq] at hnone
  unfold Encoder.encode
  cases h : write e.accuracy c.id c.glyph c.source with
  | error error =>
    rw [h] at hnone
    exact .inr ⟨hnone nofun, rfl⟩
  | ok written =>
    rw [h] at hnone
    rcases counts_of_write h with ⟨hnil, hstatistics⟩ | hcounts
    · refine .inr ⟨hnone ?_, ?_⟩
      · rintro bytes ⟨⟩
        exact hnil
      · dsimp only
        rw [hstatistics, Maxima.merge_empty]
    · exact .inl ⟨_, hcounts, rfl⟩

-- ---------------------------------------------------------------------------
-- All calls
-- ---------------------------------------------------------------------------

theorem accuracy_encode (e : Encoder α) (id : GlyphId) (g : Glyph α) (source : GlyphSource α) :
    (e.encode id g source).2.accuracy = e.accuracy := by
  unfold Encoder.encode
  cases write e.accuracy id g source <;> rfl

theorem accuracy_after (e : Encoder α) (calls : List (Call α)) :
    (e.after calls).accuracy = e.accuracy := by
  induction calls generalizing e with
  | nil => rfl
  | cons c calls ih => exact (ih _).trans (accuracy_encode e c.id c.glyph c.source)

theorem result_after (e : Encoder α) (calls : List (Call α)) (c : Call α) :
    (e.after calls).result c = e.result c := by
  rw [result_eq, result_eq, accuracy_after]

variable [LawfulScalar α]

theorem isGreatest_after {field : Maxima → ℕ} (hfield : field ∈ Maxima.fields) (e : Encoder α)
    (calls : List (Call α)) :
    IsGreatest (insert (field e.maxima) {n | ∃ c ∈ calls, ∃ s, Counts e c s ∧ field s = n})
      (field (e.after calls).maxima) := by
  induction calls generalizing e with
  | nil => simp [Encoder.after]
  | cons c calls ih =>
    have haccuracy := accuracy_encode e c.id c.glyph c.source
    have ih := ih (e.encode c.id c.glyph c.source).2
    have hcounts (c' : Call α) (s : Maxima) :
        Counts (e.encode c.id c.glyph c.source).2 c' s ↔ Counts e c' s :=
      ⟨.of_accuracy haccuracy, .of_accuracy haccuracy.symm⟩
    simp only [hcounts] at ih
    change IsGreatest _ (field (Encoder.after (e.encode c.id c.glyph c.source).2 calls).maxima)
    rcases encode_statistics e c with ⟨s, hs, hmaxima⟩ | ⟨hnone, hmaxima⟩
    · have hcons : {n | ∃ c' ∈ c :: calls, ∃ s, Counts e c' s ∧ field s = n} =
          insert (field s) {n | ∃ c' ∈ calls, ∃ s, Counts e c' s ∧ field s = n} := by
        ext n
        simp only [List.exists_mem_cons_iff, Set.mem_ofPred_eq, Set.mem_insert_iff]
        refine or_congr_left ⟨?_, ?_⟩
        · rintro ⟨s', hs', rfl⟩
          rw [hs'.unique hs]
        · rintro rfl
          exact ⟨s, hs, rfl⟩
      have hmerge : field (e.encode c.id c.glyph c.source).2.maxima =
          max (field e.maxima) (field s) := by
        rw [hmaxima]
        exact Maxima.field_merge hfield e.maxima s
      rw [hmerge] at ih
      rw [hcons]
      exact isGreatest_insert_max ih
    · have hcons : {n | ∃ c' ∈ c :: calls, ∃ s, Counts e c' s ∧ field s = n} =
          {n | ∃ c' ∈ calls, ∃ s, Counts e c' s ∧ field s = n} := by
        ext n
        simp [hnone]
      rw [hmaxima] at ih ⊢
      rwa [hcons]

-- ---------------------------------------------------------------------------
-- Doubles
-- ---------------------------------------------------------------------------

/-- In doubles, each statistic of an encoder is the greatest one among the records that it wrote, and
no less than it was at first. A call counts if it returns a record that is not empty, and then for
one set of statistics, whatever was encoded before it. So the statistics never fall, and the order of
the calls does not matter. -/
theorem maxima_after (e : Encoder Float) (calls : List (Call Float)) :
    (∀ c ∈ calls, ((∃ s, Counts e c s) ↔ ∃ bytes, e.result c = .ok bytes ∧ bytes ≠ []) ∧
        (∀ s s', Counts e c s → Counts e c s' → s = s') ∧
        ∀ earlier, (e.after earlier).result c = e.result c) ∧
      (∀ field ∈ Maxima.fields,
        IsGreatest (insert (field e.maxima) {n | ∃ c ∈ calls, ∃ s, Counts e c s ∧ field s = n})
          (field (e.after calls).maxima)) ∧
      (∀ more, ∀ field ∈ Maxima.fields,
        field (e.after calls).maxima ≤ field (e.after (calls ++ more)).maxima) ∧
      ∀ calls', calls.Perm calls' → (e.after calls').maxima = (e.after calls).maxima := by
  refine ⟨fun c _ => ⟨exists_counts_iff e c, fun _ _ => Counts.unique,
    fun earlier => result_after e earlier c⟩,
    fun field hfield => isGreatest_after hfield e calls, ?_, ?_⟩
  · intro more field hfield
    refine (isGreatest_after hfield e calls).mono (isGreatest_after hfield e (calls ++ more)) ?_
    refine Set.insert_subset_insert ?_
    rintro n ⟨c, hc, s, hs, rfl⟩
    exact ⟨c, List.mem_append_left more hc, s, hs, rfl⟩
  · intro calls' hperm
    refine Maxima.eq_of_fields fun field hfield => ?_
    have h := isGreatest_after hfield e calls'
    simp only [← hperm.mem_iff] at h
    exact h.unique (isGreatest_after hfield e calls)

/-- Glyphs of every kind: a simple and a composite one, one with both, one that is empty, and one
that refers to itself. -/
def medley : List (Call Float) :=
  let source (id : GlyphId) := if id = 1 then some wedge else none
  [⟨0, dropGlyph, source⟩, ⟨2, wedges, source⟩,
    ⟨3, { wedges with figures := dropGlyph.figures }, source⟩, ⟨4, Glyph.empty .truetype, source⟩,
    ⟨1, wedges, source⟩]

example : ((Encoder.new : Encoder Float).after medley).maxima =
    { points := 21, contours := 6, compositePoints := 16, compositeContours := 4,
      componentElements := 4, componentDepth := 1, sizeOfInstructions := 3 } := by
  decide +kernel

end Record

end Letterform
