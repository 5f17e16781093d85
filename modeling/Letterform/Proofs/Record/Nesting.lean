import Letterform.Proofs.Record.Composite
import Letterform.Proofs.Record.Depth

/-!
# The nesting limit of records

A glyph that consists of components is flattened for its box before its depth is counted. So it is
refused for its nesting if it cannot be flattened for that reason, and also if it can be flattened
but its deepest components stand one level too deep for a record.
-/

namespace Letterform

variable {α : Type} [Scalar α]

namespace Record

variable {accuracy : α} {e : Encoder α} {id : GlyphId} {g flat : Glyph α} {source : GlyphSource α}
  {error : ReferenceError}

-- ---------------------------------------------------------------------------
-- What is written without following references
-- ---------------------------------------------------------------------------

theorem toBytes_ne_reference {c : Component α} {following : LayoutFlags} :
    c.toBytes following ≠ .error (.reference error) := by
  have hid : c.writtenId ≠ .error (.reference error) := by
    unfold Component.writtenId
    split <;> simp
  have hentry (a : α) : Component.entryWord a ≠ .error (.reference error) := by
    unfold Component.entryWord
    split <;> simp
  have hoffset (a : α) : Component.offsetWord a ≠ .error (.reference error) := by
    unfold Component.offsetWord
    dsimp only
    split <;> simp
  have harguments : c.writtenArguments ≠ .error (.reference error) := by
    unfold Component.writtenArguments
    split
    · split <;> simp [pure, Except.pure]
    · simp only [ne_eq, bind_error, hoffset, false_or]
      rintro ⟨x, -, y, -, h⟩
      split at h <;> cases h
  unfold Component.toBytes
  simp only [ne_eq, bind_error, hid, hentry, harguments, false_or]
  rintro ⟨_, -, _, -, _, -, _, -, _, -, _, -, h⟩
  cases h

theorem writeComponents_ne_reference {instructions : List UInt8} {components : List (Component α)} :
    writeComponents instructions components ≠ .error (.reference error) := by
  induction components with
  | nil => simp [writeComponents]
  | cons c rest ih =>
    cases rest with
    | nil => exact toBytes_ne_reference
    | cons next rest =>
      unfold writeComponents
      simp only [ne_eq, bind_error, toBytes_ne_reference, ih, false_or]
      rintro ⟨_, -, _, -, h⟩
      cases h

theorem mapM_boundBytes_ne_reference {bounds : List α} :
    bounds.mapM boundBytes ≠ .error (.reference error) := by
  intro h
  obtain ⟨a, -, h⟩ := mapM_error h
  unfold boundBytes at h
  dsimp only at h
  split at h <;> cases h

/-- Everything that a composite record holds can be written: its components, and the sides of the
box around the flattened glyph. -/
structure FitsComposite (accuracy : α) (g flat : Glyph α) : Prop where
  components : ∃ bytes, writeComponents g.instructions g.components = .ok bytes
  bounds :
    let b := (quadratic flat accuracy).withBounds.bounds
    ∃ bytes, [b.x0, b.y0, b.x1, b.y1].mapM boundBytes = .ok bytes

-- ---------------------------------------------------------------------------
-- Which references are refused
-- ---------------------------------------------------------------------------

/-- A composite record fails for a reference if flattening does, or else if counting the depth
does once everything else is written. -/
theorem writeComposite_reference (hinstructions : g.instructions.length ≤ 0xffff) :
    writeComposite accuracy id g source = .error (.reference error) ↔
      g.flatten id source = .error error ∨
      ∃ flat, g.flatten id source = .ok flat ∧ FitsComposite accuracy g flat ∧
        depth source Component.nestingLimit g = .error (.reference error) := by
  unfold writeComposite
  dsimp only
  rw [if_neg (not_lt.mpr hinstructions)]
  simp only [bind_error, mapError_error, mapError_ok, writeComponents_ne_reference,
    mapM_boundBytes_ne_reference, false_or, EncodeError.reference.injEq, exists_eq_right, pure,
    Except.pure, reduceCtorEq, and_false, exists_false, or_false]
  refine or_congr_right (exists_congr fun flat => and_congr_right fun _ => ?_)
  constructor
  · rintro ⟨bytes, hcomponents, bounds, hbounds, h⟩
    exact ⟨⟨⟨bytes, hcomponents⟩, bounds, hbounds⟩, h⟩
  · rintro ⟨⟨⟨bytes, hcomponents⟩, bounds, hbounds⟩, h⟩
    exact ⟨bytes, hcomponents, bounds, hbounds, h⟩

omit [Scalar α] in
theorem forIn_writtenId {components : List (Component α)}
    (h : ∀ c ∈ components, ∃ id, c.target = .glyph id) :
    (forIn components PUnit.unit fun c _ => do
      discard c.writtenId
      pure (.yield PUnit.unit) : Except (EncodeError α) PUnit) = .ok PUnit.unit := by
  induction components with
  | nil => rfl
  | cons c components ih =>
    obtain ⟨⟨id, hid⟩, hrest⟩ := List.forall_mem_cons.mp h
    rw [List.forIn_cons, writtenId_ok.mpr hid]
    exact ih hrest

theorem write_composite (hne : g.components ≠ [])
    (htargets : ∀ c ∈ g.components, ∃ id, c.target = .glyph id) (hcontours : g.hasContours = false) :
    write accuracy id g source = writeComposite accuracy id g source := by
  have hmixed : g.isMixed = false := by rw [Glyph.isMixed, hcontours, Bool.and_false]
  have hempty : g.components.isEmpty = false := by simpa using hne
  rw [write, hempty, if_neg Bool.false_ne_true, forIn_writtenId htargets]
  simp [hmixed, bind, Except.bind]

theorem encode_error {error : EncodeError α} :
    (e.encode id g source).1 = .error error ↔ write e.accuracy id g source = .error error := by
  unfold Encoder.encode
  cases write e.accuracy id g source <;> simp

theorem flattenReferences_error :
    (g.flattenReferences id source).2 = some error ↔ g.flatten id source = .error error := by
  unfold Glyph.flattenReferences
  cases g.flatten id source <;> simp

theorem flattenReferences_ok :
    g.flattenReferences id source = (flat, none) ↔ g.flatten id source = .ok flat := by
  unfold Glyph.flattenReferences
  cases g.flatten id source <;> simp

/-- A glyph that consists of components is refused for its nesting exactly if flattening refuses it
for this reason, naming the same glyph, or if it can be flattened and all else can be written but
a glyph stands below the nesting limit; flattening lets these stand one level deeper. -/
theorem encode_exceeds_iff (hne : g.components ≠ [])
    (htargets : ∀ c ∈ g.components, ∃ id, c.target = .glyph id) (hcontours : g.hasContours = false)
    (hinstructions : g.instructions.length ≤ 0xffff) (e : Encoder α) (id : GlyphId)
    (source : GlyphSource α) :
    (∀ i, (g.flattenReferences id source).2 = some (.recursionLimitExceeded i) →
        (e.encode id g source).1 = .error (.reference (.recursionLimitExceeded i))) ∧
      ((∃ i, (e.encode id g source).1 = .error (.reference (.recursionLimitExceeded i))) ↔
        (∃ i, (g.flattenReferences id source).2 = some (.recursionLimitExceeded i)) ∨
        ∃ flat, g.flattenReferences id source = (flat, none) ∧ FitsComposite e.accuracy g flat ∧
          ∃ h, source.InTree g (Component.nestingLimit + 1) h) ∧
      ∀ flat, g.flattenReferences id source = (flat, none) →
        ∀ level h, source.InTree g level h → level ≤ Component.nestingLimit + 1 := by
  simp only [encode_error, write_composite hne htargets hcontours,
    writeComposite_reference hinstructions, flattenReferences_error, flattenReferences_ok]
  refine ⟨fun i h => .inl h, ?_, ?_⟩
  · rw [exists_or]
    refine or_congr_right ?_
    rw [exists_comm]
    refine exists_congr fun flat => ?_
    rw [exists_and_left, exists_and_left]
    refine and_congr_right fun hflat => and_congr_right fun _ => ?_
    exact depth_error_iff (Glyph.exists_flatten.mp ⟨flat, hflat⟩)
  · intro flat hflat level h hin
    have hunrolls := Glyph.exists_flatten.mp ⟨flat, hflat⟩
    by_contra hlevel
    obtain ⟨level, rfl⟩ : ∃ l, level = l + 1 := Nat.exists_eq_succ_of_ne_zero (by omega)
    cases hin with
    | component hin hc _ _ =>
      rw [hunrolls.ends hin (by omega)] at hc
      cases hc

-- ---------------------------------------------------------------------------
-- A chain of references
-- ---------------------------------------------------------------------------

/-- A link in a chain of glyphs, each a component of the one before it. A wedge hangs at its end. -/
def link (id : GlyphId) : Glyph Float :=
  if id < 34 then
    { Glyph.empty .truetype with
      components := [{ target := .glyph (id + 1), transform := Affine.translation 1 0 }] }
  else wedge

def chain : GlyphSource Float := fun id => some (link id)

theorem inTree_chain : chain.InTree (link 1) (Component.nestingLimit + 1) wedge := by
  have hlt : ∀ n < 33, 1 + UInt16.ofNat n < 34 := by decide
  have hadd : ∀ n < 33, 1 + UInt16.ofNat (n + 1) = 1 + UInt16.ofNat n + 1 := by decide
  have hlink (n : ℕ) (hn : n ≤ 33) : chain.InTree (link 1) n (link (1 + UInt16.ofNat n)) := by
    induction n with
    | zero => exact .root
    | succ n ih =>
      have hmem : ⟨.glyph (1 + UInt16.ofNat n + 1), Affine.translation 1 0, none, {}⟩ ∈
          (link (1 + UInt16.ofNat n)).components := by
        simp [link, hlt n hn]
      rw [hadd n hn]
      exact .component (ih (Nat.le_of_succ_le hn)) hmem rfl rfl
  exact hlink 33 le_rfl

/-- Its first glyph can be flattened, but no record can be written for it. -/
theorem encode_exceeds_chain :
    (∃ flat, (link 1).flattenReferences 1 chain = (flat, none)) ∧
      ∃ i, ((Encoder.new : Encoder Float).encode 1 (link 1) chain).1 =
        .error (.reference (.recursionLimitExceeded i)) := by
  have hsome : ((link 1).flatten 1 chain).toOption.isSome = true := by decide +kernel
  obtain ⟨flat, hflat⟩ := exists_ok hsome
  have hcomponents : (writeComponents (link 1).instructions (link 1).components).toOption.isSome =
      true := by
    decide +kernel
  have hbounds : (((link 1).flatten 1 chain).toOption.map fun flat =>
      let b := (quadratic flat defaultAccuracy).withBounds.bounds
      ([b.x0, b.y0, b.x1, b.y1].mapM boundBytes).toOption.isSome) = some true := by
    decide +kernel
  rw [hflat] at hbounds
  have hfits : FitsComposite defaultAccuracy (link 1) flat :=
    ⟨exists_ok hcomponents, exists_ok (Option.some.inj hbounds)⟩
  have hflat' := flattenReferences_ok.mpr hflat
  obtain ⟨-, hiff, -⟩ := encode_exceeds_iff (g := link 1) (by decide +kernel)
    (fun c hc => ⟨2, by rw [List.mem_singleton.mp hc]; rfl⟩) (by decide +kernel)
    (by decide +kernel) Encoder.new 1 chain
  exact ⟨⟨flat, hflat'⟩, hiff.mpr (.inr ⟨flat, hflat', hfits, wedge, inTree_chain⟩)⟩

end Record

end Letterform
