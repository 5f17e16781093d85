import Letterform.Proofs.Geometry.Bounds
import Letterform.Proofs.Record.Component
import Letterform.Proofs.Record.Writing
import Letterform.Record.Encoding

/-!
# Composite records come back

The components of a glyph are read back one after another, each from the flags of its own, and
after the last of them the instructions. The header keeps the box around the points of the glyph as
it is flattened.
-/

namespace Letterform

variable {α : Type} [Scalar α] [LawfulScalar α] [LawfulNarrow α]

namespace Record

-- ---------------------------------------------------------------------------
-- Components
-- ---------------------------------------------------------------------------

theorem readComponents_toBytes {c : Component α} (hc : c.IsWritable) {following : LayoutFlags}
    (hfollowing : following &&& LayoutFlags.followingGroup = following) {bytes : List UInt8}
    (h : c.toBytes following = .ok bytes) :
    ∃ (c' : Component α) (flags : LayoutFlags), (c' == c) = true ∧
      flags &&& LayoutFlags.followingGroup = following ∧
      ∀ rest, (readComponents (bytes ++ rest) : List (Component α) × _) =
        if following.contains LayoutFlags.moreComponents then
          (c' :: (readComponents rest).1, (readComponents rest : List (Component α) × _).2)
        else ([c'], some (flags, rest)) := by
  obtain ⟨flags, id, first, second, entries, hlayout, hgroup, rfl⟩ :=
    Component.exists_layout hc hfollowing h
  refine ⟨_, flags, hlayout.ofLayout_beq hc, hgroup, fun rest => ?_⟩
  rw [hlayout.readComponents rest, ← hgroup, FlagSet.contains_inter rfl]

theorem ending_flags : ∀ instructed : Bool,
    let f := LayoutFlags.instructions.when instructed
    f &&& LayoutFlags.followingGroup = f ∧ f.contains LayoutFlags.instructions = instructed ∧
      f.contains LayoutFlags.moreComponents = false := by
  decide

theorem readComponents_writeComponents {instructions : List UInt8} {components : List (Component α)}
    (hne : components ≠ []) (hwritable : ∀ c ∈ components, c.IsWritable) {bytes : List UInt8}
    (h : writeComponents instructions components = .ok bytes) :
    ∃ (components' : List (Component α)) (flags : LayoutFlags),
      (components' == components) = true ∧
      flags.contains LayoutFlags.instructions = !instructions.isEmpty ∧
      ∀ rest, (readComponents (bytes ++ rest) : List (Component α) × _) =
        (components', some (flags, rest)) := by
  induction components generalizing bytes with
  | nil => exact absurd rfl hne
  | cons c rest ih =>
    obtain ⟨hc, hrest⟩ := List.forall_mem_cons.mp hwritable
    cases rest with
    | nil =>
      obtain ⟨hending, hinstructed, hlast⟩ := ending_flags !instructions.isEmpty
      obtain ⟨c', flags, hbeq, hgroup, hread⟩ := readComponents_toBytes hc hending h
      refine ⟨[c'], flags, ?_, ?_, fun rest => ?_⟩
      · rw [List.cons_beq_cons, hbeq]
        rfl
      · rw [← FlagSet.contains_inter (g := LayoutFlags.followingGroup) rfl, hgroup, hinstructed]
      · rw [hread, hlast, if_neg Bool.false_ne_true]
    | cons next rest =>
      obtain ⟨bytes', hfirst, h⟩ := bind_ok.mp h
      obtain ⟨bytes'', hothers, h⟩ := bind_ok.mp h
      cases h
      obtain ⟨c', _, hbeq, -, hread⟩ := readComponents_toBytes hc rfl hfirst
      obtain ⟨components', flags, hbeq', hflags, hread'⟩ :=
        ih (List.cons_ne_nil _ _) hrest hothers
      refine ⟨c' :: components', flags, ?_, hflags, fun rest => ?_⟩
      · rw [List.cons_beq_cons, hbeq, hbeq']
        rfl
      · have hmore : LayoutFlags.moreComponents.contains LayoutFlags.moreComponents = true := rfl
        rw [List.append_assoc, hread, hmore, if_pos rfl, hread']

-- ---------------------------------------------------------------------------
-- Records
-- ---------------------------------------------------------------------------

/-- A composite record: its bounds, the bytes of its components, and instructions if there are
any. -/
def compositeBytes (left lower right upper : ℤ) (components instructions : List UInt8) :
    List UInt8 :=
  headerBytes (-1) left lower right upper ++ components ++
    if instructions.isEmpty then [] else BigEndian.encode 2 instructions.length ++ instructions

section Bytes

omit [LawfulScalar α] [LawfulNarrow α]

theorem decode_compositeBytes {left lower right upper : ℤ} (hleft : IsWord left)
    (hlower : IsWord lower) (hright : IsWord right) (hupper : IsWord upper)
    {bytes instructions : List UInt8} (hinstructions : instructions.length ≤ 0xffff)
    {components : List (Component α)} {flags : LayoutFlags}
    (hflags : flags.contains LayoutFlags.instructions = !instructions.isEmpty)
    (hread : ∀ rest, (readComponents (bytes ++ rest) : List (Component α) × _) =
      (components, some (flags, rest))) (padding : List UInt8) :
    (decode (compositeBytes left lower right upper bytes instructions ++ padding) :
        Decoded Error α) =
      ⟨{ headerGlyph left lower right upper with components, instructions }, []⟩ := by
  have hne : (compositeBytes left lower right upper bytes instructions ++ padding).isEmpty =
      false := by
    simp [compositeBytes, headerBytes, BigEndian.encode_succ]
  unfold decode
  rw [hne, if_neg Bool.false_ne_true, compositeBytes, List.append_assoc, List.append_assoc,
    readHeader?_headerBytes (α := α) ⟨by norm_num, by norm_num⟩ hleft hlower hright hupper]
  dsimp only
  rw [if_neg (by norm_num), decodeComposite, hread]
  dsimp only
  rw [hflags]
  cases instructions with
  | nil => rfl
  | cons b instructions =>
    rw [List.isEmpty_cons, if_neg Bool.false_ne_true, readInstructions?_encode hinstructions]
    rfl

theorem boundBytes_ok {a : α} {bytes : List UInt8} (h : boundBytes a = .ok bytes) :
    IsWord (Scalar.toInt32 (Scalar.roundUp a)) ∧
      bytes = BigEndian.encode 2 (Scalar.toInt32 (Scalar.roundUp a)) := by
  unfold boundBytes at h
  dsimp only at h
  split_ifs at h with hword
  cases h
  rw [SimpleRecord.isWord, Bool.and_eq_true, decide_eq_true_iff, decide_eq_true_iff] at hword
  exact ⟨⟨hword.1, by omega⟩, rfl⟩

end Bytes

end Record

/-- A box with its sides on the nearest whole coordinates. -/
def Rect.rounded (r : Rect α) : Rect α :=
  let whole (a : α) : α := Scalar.ofInt (Scalar.toInt32 (Scalar.roundUp a))
  ⟨whole r.x0, whole r.y0, whole r.x1, whole r.y1⟩

namespace Record

omit [LawfulScalar α] [LawfulNarrow α] in
/-- A glyph that consists of components is flattened for its bounds only. Without contours of its
own, it is written as a composite record. -/
theorem encode_composite {e : Encoder α} {id : GlyphId} {g : Glyph α} {source : GlyphSource α}
    (hcontours : g.hasContours = false) (hne : g.components ≠ []) {bytes : List UInt8}
    (h : (e.encode id g source).1 = .ok bytes) :
    ∃ flat components padding, g.flatten id source = .ok flat ∧ g.instructions.length ≤ 0xffff ∧
      writeComponents g.instructions g.components = .ok components ∧
      let b := (quadratic flat e.accuracy).withBounds.bounds
      let whole (a : α) := Scalar.toInt32 (Scalar.roundUp a)
      (IsWord (whole b.x0) ∧ IsWord (whole b.y0) ∧ IsWord (whole b.x1) ∧ IsWord (whole b.y1)) ∧
      bytes = compositeBytes (whole b.x0) (whole b.y0) (whole b.x1) (whole b.y1) components
        g.instructions ++ padding := by
  have hmixed : g.isMixed = false := by rw [Glyph.isMixed, hcontours, Bool.and_false]
  have hempty : g.components.isEmpty = false := by simpa using hne
  obtain ⟨written, hwrite, rfl⟩ : ∃ written, write e.accuracy id g source = .ok written ∧
      bytes = written.bytes := by
    unfold Encoder.encode at h
    rcases hwrite : write e.accuracy id g source with error | written
    · rw [hwrite] at h
      cases h
    · rw [hwrite] at h
      cases h
      exact ⟨written, rfl, rfl⟩
  rw [write, hempty, if_neg Bool.false_ne_true] at hwrite
  obtain ⟨-, -, hwrite⟩ := bind_ok.mp hwrite
  rw [hmixed, if_neg Bool.false_ne_true, writeComposite] at hwrite
  dsimp only at hwrite
  by_cases hlong : 0xffff < g.instructions.length
  · rw [if_pos hlong] at hwrite
    cases hwrite
  rw [if_neg hlong] at hwrite
  obtain ⟨flat, hflat, hwrite⟩ := bind_ok.mp hwrite
  obtain ⟨components, hcomponents, hwrite⟩ := bind_ok.mp hwrite
  obtain ⟨bounds, hbounds, hwrite⟩ := bind_ok.mp hwrite
  obtain ⟨depth, -, hwrite⟩ := bind_ok.mp hwrite
  cases hwrite
  have hflat' : g.flatten id source = .ok flat := by
    rcases hresult : g.flatten id source with error | flat'
    · rw [hresult] at hflat
      cases hflat
    · rw [hresult] at hflat
      cases hflat
      rfl
  -- The four bounds, one after another.
  obtain _ | ⟨hx0, _ | ⟨hy0, _ | ⟨hx1, _ | ⟨hy1, _ | _⟩⟩⟩⟩ := mapM_ok hbounds
  obtain ⟨hleft, rfl⟩ := boundBytes_ok hx0
  obtain ⟨hlower, rfl⟩ := boundBytes_ok hy0
  obtain ⟨hright, rfl⟩ := boundBytes_ok hx1
  obtain ⟨hupper, rfl⟩ := boundBytes_ok hy1
  obtain ⟨padding, hpadding⟩ := exists_padded (compositeBytes _ _ _ _ components g.instructions)
  refine ⟨flat, components, padding, hflat', not_lt.mp hlong, hcomponents,
    ⟨hleft, hlower, hright, hupper⟩, ?_⟩
  rw [← hpadding]
  simp only [compositeBytes, headerBytes, List.flatten_cons, List.flatten_nil, List.append_assoc,
    List.append_nil]

-- ---------------------------------------------------------------------------
-- Doubles
-- ---------------------------------------------------------------------------

/-- In doubles, a glyph that consists of components is read back from the record that is written
for it. Its components are placed by 2.14 entries and whole offsets or by points. Its box reaches
from the least to the greatest coordinates of the points that it is flattened to, control points
included, and has its sides on the nearest whole coordinates. -/
theorem decode_encode_composite {g : Glyph Float} (hcontours : g.hasContours = false)
    (hne : g.components ≠ []) (hwritable : ∀ c ∈ g.components, c.IsWritable) {e : Encoder Float}
    {id : GlyphId} {source : GlyphSource Float} {bytes : List UInt8}
    (h : (e.encode id g source).1 = .ok bytes) :
    (decode bytes : Decoded Error Float).diagnostics = [] ∧
      ((decode bytes : Decoded Error Float).glyph.components == g.components) = true ∧
      (decode bytes : Decoded Error Float).glyph.instructions = g.instructions ∧
      ∃ flat left lower right upper, g.flatten id source = .ok flat ∧
        IsRange ((quadratic flat e.accuracy).points.map (·.x)) left right ∧
        IsRange ((quadratic flat e.accuracy).points.map (·.y)) lower upper ∧
        (decode bytes : Decoded Error Float).glyph.bounds =
          (⟨left, lower, right, upper⟩ : Rect Float).rounded := by
  obtain ⟨flat, bytes', padding, hflat, hinstructions, hcomponents, ⟨hleft, hlower, hright, hupper⟩,
    rfl⟩ := encode_composite hcontours hne h
  obtain ⟨components, flags, hbeq, hflags, hread⟩ :=
    readComponents_writeComponents hne hwritable hcomponents
  rw [decode_compositeBytes hleft hlower hright hupper hinstructions hflags hread padding]
  obtain ⟨hx, hy⟩ := Rect.isRange_around (quadratic flat e.accuracy).points
  exact ⟨rfl, hbeq, rfl, flat, _, _, _, _, hflat, hx, hy, rfl⟩

def wedge : Glyph Float :=
  let b : Builder Float := ({ order := .quadratic } : Builder Float).moveTo ⟨0, 0⟩
  { Glyph.empty .truetype with
    figures := [((b.lineTo ⟨300, 0⟩).quadTo ⟨300, 200⟩ ⟨0, 200.5⟩).close.finish] }

/-- Wedges that are placed by wide and by narrow arguments, both offsets and points, and transformed
by as many entries as there can be. -/
def wedges : Glyph Float :=
  { Glyph.empty .truetype with
    components := [
      { target := .glyph 1, transform := Affine.translation 300 (-2),
        flags := { useMyMetrics := true } },
      { target := .glyph 1, transform := ⟨0.5, 0.25, 0, -1, 0, 0⟩,
        pointMatch := some { base := 2, component := 1 } },
      { target := .glyph 1, transform := ⟨1.5, 0, 0, 1.5, 10, 20⟩,
        flags := { scaledComponentOffset := true, unscaledComponentOffset := true } },
      { target := .glyph 1, transform := ⟨-2, 0, 0, 0.75, 0, 0⟩,
        pointMatch := some { base := 300, component := 0 } }]
    instructions := [1, 2, 3] }

theorem isWritable_wedges : ∀ c ∈ wedges.components, c.IsWritable := by
  have hcomponents : wedges.components = [_, _, _, _] := rfl
  rw [hcomponents]
  simp only [List.forall_mem_cons]
  refine ⟨?_, ?_, ?_, ?_, List.forall_mem_nil _⟩
  · exact Component.isWritable_of_beq rfl rfl 0x4000 0 0 0x4000 300 (-2) (by decide)
      (by decide +kernel) (.inl rfl)
  · exact Component.isWritable_of_beq rfl rfl 0x2000 0x1000 0 (-0x4000) 0 0 (by decide)
      (by decide +kernel) (.inr ⟨rfl, rfl⟩)
  · exact Component.isWritable_of_beq rfl rfl 0x6000 0 0 0x6000 10 20 (by decide)
      (by decide +kernel) (.inl rfl)
  · exact Component.isWritable_of_beq rfl rfl (-0x8000) 0 0 0x3000 0 0 (by decide)
      (by decide +kernel) (.inr ⟨rfl, rfl⟩)

/-- The coordinates of the points that the wedges are flattened to, along both axes. -/
def wedgeRows : List Float × List Float :=
  ([300, 600, 600, 300, 600, 0, 150, 150, 0, 150, 10, 460, 460, 10, 460, 0, -600, -600, 0, -600],
    [-2, -2, 198, 198.5, 198, 0, 75, -125, -200.5, -125, 20, 20, 320, 320.75, 320, 0, 0, 150, 150.375,
      150])

theorem decode_encode_wedges :
    let source (id : GlyphId) := if id = 1 then some wedge else none
    ∃ bytes, ((Encoder.new : Encoder Float).encode 2 wedges source).1 = .ok bytes ∧
      (decode bytes : Decoded Error Float).diagnostics = [] ∧
      ((decode bytes : Decoded Error Float).glyph.components == wedges.components) = true ∧
      (decode bytes : Decoded Error Float).glyph.instructions = [1, 2, 3] ∧
      (decode bytes : Decoded Error Float).glyph.bounds = ⟨-600, -200, 600, 321⟩ := by
  intro source
  have hok : ((Encoder.new : Encoder Float).encode 2 wedges source).1.toOption.isSome = true := by
    decide +kernel
  obtain ⟨bytes, h⟩ := exists_ok hok
  obtain ⟨hdiagnostics, hcomponents, hinstructions, flat, left, lower, right, upper, hflat, hx, hy,
    hbounds⟩ := decode_encode_composite rfl (by decide) isWritable_wedges h
  have hpoints : (wedges.flatten 2 source).toOption.map (fun flat =>
      let points := (quadratic flat (Encoder.new : Encoder Float).accuracy).points
      (points.map (·.x), points.map (·.y))) = some wedgeRows := by decide +kernel
  rw [hflat] at hpoints
  obtain ⟨hxs, hys⟩ := Prod.mk.inj (Option.some.inj hpoints)
  rw [hxs] at hx
  rw [hys] at hy
  obtain ⟨rfl, rfl⟩ : left = -600 ∧ right = 600 := hx.eq (by decide +kernel)
  obtain ⟨rfl, rfl⟩ : lower = -200.5 ∧ upper = 320.75 := hy.eq (by decide +kernel)
  refine ⟨bytes, h, hdiagnostics, hcomponents, hinstructions, hbounds.trans ?_⟩
  decide +kernel

end Record

end Letterform
