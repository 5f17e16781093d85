import Letterform.Proofs.Component.Flattening
import Letterform.Proofs.Record.Composite
import Letterform.Proofs.Record.HeaderBox

/-!
# The box of a composite is made of the boxes of its leaves

The box in the header of a composite record is taken from all anchors and control points of the
flattened glyph, the boxes of its leaves from the points that are written for these. If the leaves
are only shifted and all coordinates are whole, both are the smallest boxes around the outlines, and
so the one of the composite can be told from the records of its leaves.
-/

namespace Letterform

open LawfulScalar (Denotes)
open Record (IsWord)

-- ---------------------------------------------------------------------------
-- Offsets
-- ---------------------------------------------------------------------------

namespace Component

variable {c : Component Float} {dx dy : ℤ}

theorem isWord_of_offsetWord {a : Float} {n word : ℤ} (h : offsetWord a = .ok word)
    (ha : Denotes a n) : IsWord n := by
  unfold offsetWord at h
  dsimp only at h
  split_ifs at h with hword
  have hword : IsWord (Scalar.toInt32 (Scalar.roundUp a)) := ⟨hword.1, by omega⟩
  rwa [hword.toInt32_roundUp ha] at hword

theorem isWord_of_toBytes {following : LayoutFlags} {bytes : List UInt8}
    (h : c.toBytes following = .ok bytes) (hmatch : c.pointMatch = none)
    (ht : c.transform.IsShift dx dy) : IsWord dx ∧ IsWord dy := by
  obtain ⟨_, _, h⟩ := bind_ok.mp h
  obtain ⟨_, _, h⟩ := bind_ok.mp h
  obtain ⟨_, _, h⟩ := bind_ok.mp h
  obtain ⟨_, _, h⟩ := bind_ok.mp h
  obtain ⟨_, _, h⟩ := bind_ok.mp h
  dsimp only at h
  obtain ⟨_, harguments, -⟩ := bind_ok.mp h
  have hscale : offsetScale c.transform.linear = (1, 1) :=
    Prod.ext (Double.hypot_unit ht.xx ht.xy) (Double.hypot_unit ht.yy ht.yx)
  have hunscaled (scaled : Bool) {a : Float} {n : ℤ} (ha : Denotes a n) :
      Denotes (if scaled && !((1 : Float) == 0) then a / 1 else a) n := by
    split_ifs
    · exact Double.standsFor_div_one ha
    · exact ha
  rw [writtenArguments, hmatch, hscale] at harguments
  obtain ⟨_, hx, harguments⟩ := bind_ok.mp harguments
  obtain ⟨_, hy, -⟩ := bind_ok.mp harguments
  exact ⟨isWord_of_offsetWord hx (hunscaled _ ht.dx), isWord_of_offsetWord hy (hunscaled _ ht.dy)⟩

end Component

theorem Record.exists_toBytes {instructions : List UInt8} {components : List (Component Float)}
    {bytes : List UInt8} (h : writeComponents instructions components = .ok bytes) :
    ∀ c ∈ components, ∃ following bytes, c.toBytes following = .ok bytes := by
  induction components generalizing bytes with
  | nil => nofun
  | cons c rest ih =>
    cases rest with
    | nil => exact List.forall_mem_singleton.mpr ⟨_, _, h⟩
    | cons next rest =>
      obtain ⟨_, hfirst, h⟩ := bind_ok.mp h
      obtain ⟨_, hothers, -⟩ := bind_ok.mp h
      exact List.forall_mem_cons.mpr ⟨⟨_, _, hfirst⟩, ih hothers⟩

-- ---------------------------------------------------------------------------
-- Flattened glyphs
-- ---------------------------------------------------------------------------

section Moved

variable {α : Type} [Scalar α]

theorem Figure.points_transform (f : Figure α) (t : Affine α) :
    (f.transform t).points = f.points.map t.apply := by
  have hknot (k : Knot α) : (k.map t.apply).points = k.points.map t.apply := by
    obtain ⟨-, controlIn, controlOut⟩ := k
    cases controlIn <;> cases controlOut <;> rfl
  simp [points, transform, List.flatMap_map, List.map_flatMap, hknot]

theorem Glyph.points_of_hasContours {g : Glyph α} (hdrawn : ∀ f ∈ g.figures, f.IsDrawn)
    (h : g.hasContours = false) : g.points = [] := by
  rw [hasContours, Bool.not_eq_false', List.all_eq_true] at h
  exact List.flatMap_eq_nil_iff.mpr fun f hf => (hdrawn f hf).points_of_isEmpty (h f hf)

end Moved

namespace Record

/-- A component that is only shifted, with the glyph that it refers to and the record of this. -/
structure Part where
  component : Component Float
  dx : ℤ
  dy : ℤ
  glyph : Glyph Float
  record : List UInt8

namespace Part

/-- The component takes a glyph of its own from a font and shifts it, and this has the record. -/
structure IsFrom (p : Part) (source : GlyphSource Float) : Prop where
  isShift : p.component.transform.IsShift p.dx p.dy
  pointMatch : p.component.pointMatch = none
  isWhole : p.glyph.IsWhole
  glyph : ∃ id, p.component.target = .glyph id ∧ source id = some p.glyph
  record : ∃ (e : Encoder Float) (id : GlyphId), (e.encode id p.glyph source).1 = .ok p.record

def box (p : Part) : Rect ℤ := (headerBox p.record).shift p.dx p.dy

def points (p : Part) : List (Point Float) := p.glyph.points.map p.component.transform.apply

variable {p : Part} {source : GlyphSource Float}

theorem IsFrom.isAround_box (h : p.IsFrom source) (hcontours : p.glyph.hasContours = true)
    {following : LayoutFlags} {bytes : List UInt8}
    (hwritten : p.component.toBytes following = .ok bytes) : p.box.IsAround p.points := by
  obtain ⟨e, id, hrecord⟩ := h.record
  obtain ⟨l, hl⟩ := IsLayout.of_encode h.isWhole hcontours hrecord
  obtain ⟨haround, hwords⟩ := hl.isAround_headerBox h.isWhole
  obtain ⟨hdx, hdy⟩ := Component.isWord_of_toBytes hwritten h.pointMatch h.isShift
  have hsmall {n : ℤ} (hn : IsWord n) : |n| < 2 ^ 51 := hn.magnitude_le.trans_lt (by norm_num)
  refine haround.shift h.isShift ?_
  simp only [List.forall_mem_cons] at hwords ⊢
  obtain ⟨hx0, hy0, hx1, hy1, -⟩ := hwords
  exact ⟨hsmall hx0, hsmall hy0, hsmall hx1, hsmall hy1, hsmall hdx, hsmall hdy,
    List.forall_mem_nil _⟩

end Part

variable {source : GlyphSource Float} {parts : List Part} {placed : List (Placed Float)}

theorem figures_of_lists {components : List (Component Float)}
    (h : source.Lists components placed) (hcomponents : components = parts.map (·.component))
    (hparts : ∀ p ∈ parts, p.IsFrom source) :
    placed.flatMap Placed.figures =
      parts.flatMap fun p => p.glyph.figures.map (·.transform p.component.transform) := by
  induction h generalizing parts with
  | nil =>
    obtain rfl := List.map_eq_nil_iff.mp hcomponents.symm
    rfl
  | @cons c rest id child below after htarget hsource hbelow _ _ ih =>
    cases parts with
    | nil => cases hcomponents
    | cons p parts =>
      obtain ⟨rfl, hrest⟩ := List.cons.inj hcomponents
      obtain ⟨hp, hparts⟩ := List.forall_mem_cons.mp hparts
      obtain ⟨id', htarget', hsource'⟩ := hp.glyph
      cases htarget.symm.trans htarget'
      cases hsource.symm.trans hsource'
      rw [hp.isWhole.components] at hbelow
      cases hbelow
      rw [List.flatMap_append, ih hrest hparts, List.flatMap_cons]
      congr 1
      exact List.append_nil _

section Flattened

variable {g flat : Glyph Float} (hcontours : g.hasContours = false)
  (hdrawn : ∀ f ∈ g.figures, f.IsDrawn) (hparts : ∀ p ∈ parts, p.IsFrom source)
  (hflat : flat.figures = g.figures ++ (parts.flatMap fun p =>
    p.glyph.figures.map (·.transform p.component.transform)).filter (!·.isEmpty))
include hcontours hdrawn hparts hflat

theorem points_flatten :
    flat.points = ((parts.filter (·.glyph.hasContours)).map Part.points).flatten := by
  have hpart (p : Part) (hp : p ∈ parts) :
      ((p.glyph.figures.map (·.transform p.component.transform)).filter (!·.isEmpty)).flatMap
        Figure.points = p.points := by
    rw [flatMap_filter_eq, Part.points, Glyph.points, List.flatMap_map, List.map_flatMap]
    · exact List.flatMap_congr fun f _ => f.points_transform _
    · refine List.forall_mem_map.mpr fun f hf hempty => ?_
      rw [Bool.not_eq_false'] at hempty
      rw [Figure.points_transform, ((hparts p hp).isWhole.drawn f hf).points_of_isEmpty hempty,
        List.map_nil]
  have hempty (p : Part) (hp : p ∈ parts) (hcontours : p.glyph.hasContours = false) :
      p.points = [] := by
    rw [Part.points, Glyph.points_of_hasContours (hparts p hp).isWhole.drawn hcontours,
      List.map_nil]
  have hown : g.points = [] := Glyph.points_of_hasContours hdrawn hcontours
  rw [Glyph.points] at hown
  rw [Glyph.points, hflat, List.flatMap_append, hown, List.nil_append, List.filter_flatMap,
    List.flatMap_assoc, List.flatMap_congr hpart, ← List.flatMap_def, flatMap_filter_eq hempty]

theorem hasCurves_parts : flat.hasCurves .cubic = false := by
  rw [Glyph.hasCurves, hflat, List.any_eq_false]
  intro f hf
  rw [Bool.not_eq_true]
  rcases List.mem_append.mp hf with hf | hf
  · rw [Glyph.hasContours, Bool.not_eq_false', List.all_eq_true] at hcontours
    rw [Figure.hasCurves, ((hdrawn f hf).isNeat.eq_empty (hcontours f hf)).2, Array.any_empty]
  · obtain ⟨p, hp, hf⟩ := List.mem_flatMap.mp (List.mem_of_mem_filter hf)
    obtain ⟨f', hf', rfl⟩ := List.mem_map.mp hf
    have hcurves := (hparts p hp).isWhole.curves
    rw [Glyph.hasCurves, List.any_eq_false] at hcurves
    exact Bool.eq_false_iff.mpr (hcurves f' hf')

end Flattened

-- ---------------------------------------------------------------------------
-- Doubles
-- ---------------------------------------------------------------------------

/-- In doubles, the box of a composite record is the smallest one around the boxes of the records of
its leaves where these stand. The leaves are shifted by whole numbers, drawn by straight lines and
quadratic curves between whole coordinates, and not all of them are empty. -/
theorem headerBox_composite {g : Glyph Float} (hcontours : g.hasContours = false)
    (hdrawn : ∀ f ∈ g.figures, f.IsDrawn) (hcomponents : g.components = parts.map (·.component))
    (hparts : ∀ p ∈ parts, p.IsFrom source) (hfull : ∃ p ∈ parts, p.glyph.hasContours = true)
    {e : Encoder Float} {id : GlyphId} {bytes : List UInt8}
    (h : (e.encode id g source).1 = .ok bytes) :
    Rect.union? ((parts.filter (·.glyph.hasContours)).map Part.box) = some (headerBox bytes) := by
  obtain ⟨full, hmem, hfull⟩ := hfull
  have hne : g.components ≠ [] := by
    rw [hcomponents]
    exact List.ne_nil_of_mem (List.mem_map_of_mem hmem)
  obtain ⟨flat, components, padding, hflat, -, hwritten, hbounds, rfl⟩ :=
    encode_composite hcontours hne h
  obtain ⟨placed, hplaced, hflat⟩ := Glyph.flatten_ok hflat
  have hfigures : flat.figures = g.figures ++ (parts.flatMap fun p =>
      p.glyph.figures.map (·.transform p.component.transform)).filter (!·.isEmpty) := by
    rw [hflat, ← figures_of_lists hplaced hcomponents hparts]
  have hwhole (p : Part) (hp : p ∈ parts.filter (·.glyph.hasContours)) :
      p.box.IsAround p.points := by
    obtain ⟨hp, hcontours⟩ := List.mem_filter.mp hp
    obtain ⟨following, bytes, hbytes⟩ := exists_toBytes hwritten p.component
      (hcomponents ▸ List.mem_map_of_mem hp)
    exact (hparts p hp).isAround_box hcontours hbytes
  have hboxes : List.Forall₂ Rect.IsAround ((parts.filter (·.glyph.hasContours)).map Part.box)
      ((parts.filter (·.glyph.hasContours)).map Part.points) := by
    rw [List.forall₂_map_left_iff, List.forall₂_map_right_iff, List.forall₂_same]
    exact hwhole
  obtain ⟨r, hunion, haround⟩ := Rect.isAround_union? hboxes
    (List.ne_nil_of_mem (List.mem_map_of_mem (List.mem_filter.mpr ⟨hmem, hfull⟩)))
  rw [← points_flatten hcontours hdrawn hparts hfigures] at haround
  have hquadratic : quadratic flat e.accuracy = flat := by
    rw [quadratic, hasCurves_parts hcontours hdrawn hparts hfigures, if_neg Bool.false_ne_true]
  have hbox : flat.withBounds.bounds = .around flat.points := rfl
  rw [hquadratic, hbox] at hbounds ⊢
  dsimp only at hbounds ⊢
  obtain ⟨hx0, hy0, hx1, hy1⟩ := haround.around
  obtain ⟨hleft, hlower, hright, hupper⟩ := hbounds
  rw [hunion, compositeBytes, List.append_assoc, List.append_assoc,
    headerBox_headerBytes hleft hlower hright hupper, hleft.toInt32_roundUp hx0,
    hlower.toInt32_roundUp hy0, hright.toInt32_roundUp hx1, hupper.toInt32_roundUp hy1]

/-- An arch whose highest point follows from the control points next to it. -/
def arch : Glyph Float :=
  let b : Builder Float := ({ order := .quadratic } : Builder Float).callAll
    [.draw (.moveTo ⟨0, 0⟩), .draw (.quadTo ⟨-30, 120⟩ ⟨50, 120⟩),
      .draw (.quadTo ⟨130, 120⟩ ⟨100, 0⟩), .draw (.lineTo ⟨50, -7⟩), .draw .close]
  { Glyph.empty .truetype with figures := [b.finish] }

theorem isWhole_arch : arch.IsWhole := by
  have hwhole : ∀ p ∈ arch.points, (p.x == Float.ofInt (Scalar.toInt32 p.x)) = true ∧
      (p.y == Float.ofInt (Scalar.toInt32 p.y)) = true := by
    decide +kernel
  refine ⟨rfl, List.forall_mem_singleton.mpr ⟨_, _, rfl⟩, by decide +kernel, fun p hp => ?_⟩
  obtain ⟨hx, hy⟩ := hwhole p hp
  exact ⟨_, _, Double.standsFor_toInt32 hx, Double.standsFor_toInt32 hy⟩

/-- Two arches and a glyph without contours between them. -/
def arches : Glyph Float :=
  { Glyph.empty .truetype with
    components := [
      { target := .glyph 1, transform := Affine.translation 10 (-20) },
      { target := .glyph 2, transform := Affine.translation 500 500 },
      { target := .glyph 1, transform := Affine.translation (-300) 5,
        flags := { scaledComponentOffset := true } }] }

theorem isShift_translation {m n : ℤ} (hm : IsWord m) (hn : IsWord n) :
    (Affine.translation (Float.ofInt m) (Float.ofInt n)).IsShift m n :=
  ⟨Double.standsFor_one, Scalar.denotes_zero, Scalar.denotes_zero, Double.standsFor_one,
    LawfulScalar.ofInt hm.abs_lt_two_pow, LawfulScalar.ofInt hn.abs_lt_two_pow⟩

theorem headerBox_composite_arches :
    let source (id : GlyphId) := if id = 1 then some arch else some (Glyph.empty .truetype)
    ∃ record bytes, ((Encoder.new : Encoder Float).encode 1 arch source).1 = .ok record ∧
      ((Encoder.new : Encoder Float).encode 3 arches source).1 = .ok bytes ∧
      Rect.union? [(headerBox record).shift 10 (-20), (headerBox record).shift (-300) 5] =
        some (headerBox bytes) := by
  intro source
  obtain ⟨record, hrecord⟩ := exists_ok (show
    ((Encoder.new : Encoder Float).encode 1 arch source).1.toOption.isSome = true by decide +kernel)
  obtain ⟨bytes, hbytes⟩ := exists_ok (show
    ((Encoder.new : Encoder Float).encode 3 arches source).1.toOption.isSome = true by
      decide +kernel)
  have hcontours : arch.hasContours = true := by decide +kernel
  let parts : List Part := [
    ⟨{ target := .glyph 1, transform := Affine.translation 10 (-20) }, 10, -20, arch, record⟩,
    ⟨{ target := .glyph 2, transform := Affine.translation 500 500 }, 500, 500,
      Glyph.empty .truetype, []⟩,
    ⟨{ target := .glyph 1, transform := Affine.translation (-300) 5,
        flags := { scaledComponentOffset := true } }, -300, 5, arch, record⟩]
  have hparts : ∀ p ∈ parts, p.IsFrom source := by
    simp only [parts, List.forall_mem_cons]
    refine ⟨⟨?_, rfl, isWhole_arch, ⟨1, rfl, rfl⟩, ⟨.new, 1, hrecord⟩⟩,
      ⟨?_, rfl, ⟨rfl, nofun, rfl, nofun⟩, ⟨2, rfl, rfl⟩, ⟨.new, 2, rfl⟩⟩,
      ⟨?_, rfl, isWhole_arch, ⟨1, rfl, rfl⟩, ⟨.new, 1, hrecord⟩⟩, List.forall_mem_nil _⟩
    · exact isShift_translation (m := 10) (n := -20) (by decide) (by decide)
    · exact isShift_translation (m := 500) (n := 500) (by decide) (by decide)
    · exact isShift_translation (m := -300) (n := 5) (by decide) (by decide)
  have hcomponents : arches.components = parts.map (·.component) := rfl
  have hunion := headerBox_composite (g := arches) rfl nofun hcomponents hparts
    ⟨_, List.mem_cons_self, hcontours⟩ hbytes
  have hempty : (Glyph.empty .truetype : Glyph Float).hasContours = false := rfl
  simp only [parts, List.filter_cons, List.filter_nil, hcontours, hempty, if_true,
    Bool.false_eq_true, if_false, List.map_cons, List.map_nil, Part.box] at hunion
  exact ⟨record, bytes, hrecord, hbytes, hunion⟩

end Record

end Letterform
