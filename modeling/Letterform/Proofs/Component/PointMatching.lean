import Letterform.Proofs.Component.Tree

/-!
# Placing components by their points

A component with a point match is moved so that two points fall together. Where it was before does
not matter, and so the components may be placed again, after a success as well as after a failure
part way.
-/

namespace Letterform

variable {α : Type}

-- ---------------------------------------------------------------------------
-- Components that are moved
-- ---------------------------------------------------------------------------

/-- A component is changed at most in where a point match places it. -/
structure Component.Moved [Scalar α] (c d : Component α) : Prop where
  target : d.target = c.target
  linear : d.transform.linear = c.transform.linear
  pointMatch : d.pointMatch = c.pointMatch
  flags : d.flags = c.flags
  stays : c.pointMatch = none → d = c

/-- A glyph is changed at most in where point matches place its components. -/
def Glyph.Moved [Scalar α] (g h : Glyph α) : Prop :=
  ∃ components, List.Forall₂ Component.Moved g.components components ∧
    h = { g with components }

/-- The point that a component is placed by lies on its base, which is one of some points. -/
def Component.Matched [Scalar α] (source : GlyphSource α) (placed : List (Point α))
    (c : Component α) : Prop :=
  ∃ id child points, c.target = .glyph id ∧ source id = some child ∧
    source.HasPoints child points ∧ ∀ m, c.pointMatch = some m → ∃ base point,
      placed[m.base.toNat]? = some base ∧ points[m.component.toNat]? = some point ∧
      ∀ [ExactScalar α], c.transform.apply point = base

namespace Component

variable [Scalar α] {c d : Component α}

theorem moved_refl (c : Component α) : c.Moved c := ⟨rfl, rfl, rfl, rfl, fun _ => rfl⟩

theorem moved_withTranslation {m : PointMatch} (hmatch : c.pointMatch = some m) (dx dy : α) :
    c.Moved (c.withTranslation dx dy) :=
  ⟨rfl, rfl, rfl, rfl, fun hnone => by simp [hmatch] at hnone⟩

theorem Moved.withTranslation_eq (h : c.Moved d) (dx dy : α) :
    d.withTranslation dx dy = c.withTranslation dx dy := by
  obtain ⟨_, ⟨_, _, _, _, _, _⟩, _, _⟩ := c
  obtain ⟨_, ⟨_, _, _, _, _, _⟩, _, _⟩ := d
  obtain ⟨htarget, hlinear, hmatch, hflags, -⟩ := h
  simp_all [withTranslation, Affine.withTranslation, Affine.linear]

theorem Moved.glyphId_eq (h : c.Moved d) : d.glyphId = c.glyphId := by
  rw [glyphId, glyphId, h.target]

end Component

namespace Glyph

open Component

variable [Scalar α] {source : GlyphSource α} {root : GlyphId} {c d : Component α}
  {placed childPoints points : List (Point α)} {cs ds : List (Component α)}

-- ---------------------------------------------------------------------------
-- One component
-- ---------------------------------------------------------------------------

theorem matchPoints_congr (h : c.Moved d) (hmatch : c.pointMatch ≠ none) :
    matchPoints root placed childPoints d = matchPoints root placed childPoints c := by
  unfold matchPoints
  rw [h.pointMatch, h.linear, h.glyphId_eq]
  cases hm : c.pointMatch with
  | none => exact absurd hm hmatch
  | some m => simp only [h.withTranslation_eq]

theorem placeComponent_congr (h : c.Moved d) :
    placeComponent source root placed d = placeComponent source root placed c := by
  by_cases hmatch : c.pointMatch = none
  · rw [h.stays hmatch]
  · have hchild : source.child root d = source.child root c := by
      rw [GlyphSource.child, GlyphSource.child, h.glyphId_eq]
    rw [placeComponent, placeComponent, hchild]
    simp only [matchPoints_congr h hmatch]

theorem matchPoints_ok (h : matchPoints root placed childPoints c = .ok d) : c.Moved d ∧
    ∀ m, c.pointMatch = some m → ∃ base point, placed[m.base.toNat]? = some base ∧
      childPoints[m.component.toNat]? = some point ∧
      d = c.withTranslation (base - c.transform.linear.apply point).x
        (base - c.transform.linear.apply point).y := by
  unfold matchPoints at h
  cases hmatch : c.pointMatch with
  | none =>
    rw [hmatch] at h
    cases h
    exact ⟨moved_refl c, nofun⟩
  | some m =>
    simp only [hmatch] at h
    cases hbase : placed[m.base.toNat]? with
    | none => simp [hbase, throw, throwThe, MonadExceptOf.throw] at h
    | some base =>
      cases hpoint : childPoints[m.component.toNat]? with
      | none => simp [hbase, hpoint, bind_ok] at h
      | some point =>
        simp only [hbase, hpoint, pure_ok] at h
        subst h
        refine ⟨moved_withTranslation hmatch _ _, fun m' hm' => ?_⟩
        cases hm'
        exact ⟨base, point, hbase, hpoint, rfl⟩

theorem placeComponent_ok (h : placeComponent source root placed c = .ok (d, points)) :
    c.Moved d ∧ d.Matched source placed ∧ ∃ id child childPoints, d.target = .glyph id ∧
      source id = some child ∧ source.HasPoints child childPoints ∧
      points = childPoints.map d.transform.apply := by
  simp only [placeComponent, bind_ok, pure_ok, Prod.mk.injEq] at h
  obtain ⟨tree, htree, d, hmatch, rfl, rfl⟩ := h
  obtain ⟨id, child, htarget, hsource, hpoints⟩ := GlyphSource.hasPoints_child htree
  obtain ⟨hmoved, hmatched⟩ := matchPoints_ok hmatch
  have htarget' : d.target = .glyph id := hmoved.target.trans htarget
  refine ⟨hmoved, ⟨id, child, _, htarget', hsource, hpoints, ?_⟩, id, child, _, htarget', hsource,
    hpoints, rfl⟩
  intro m hm
  obtain ⟨base, point, hbase, hpoint, heq⟩ := hmatched m (hmoved.pointMatch ▸ hm)
  refine ⟨base, point, hbase, hpoint, ?_⟩
  intro _
  rw [heq]
  exact Affine.withTranslation_apply c.transform point base

-- ---------------------------------------------------------------------------
-- One component after another
-- ---------------------------------------------------------------------------

theorem placeComponents_moved (cs : List (Component α)) (placed : List (Point α)) :
    List.Forall₂ Component.Moved cs (placeComponents source root placed cs).1 := by
  induction cs generalizing placed with
  | nil => exact .nil
  | cons c cs ih =>
    rw [placeComponents]
    cases h : placeComponent source root placed c with
    | error e => exact List.forall₂_same.mpr fun c _ => moved_refl c
    | ok result => exact .cons (placeComponent_ok h).1 (ih _)

/-- What becomes of the components does not depend on where point matches had placed them. -/
theorem placeComponents_congr (h : List.Forall₂ Component.Moved cs ds) (source : GlyphSource α)
    (root : GlyphId) (placed : List (Point α)) :
    (placeComponents source root placed ds).2 = (placeComponents source root placed cs).2 ∧
      ((placeComponents source root placed cs).2 = none →
        (placeComponents source root placed ds).1 = (placeComponents source root placed cs).1) := by
  induction h generalizing placed with
  | nil => exact ⟨rfl, fun _ => rfl⟩
  | @cons c d cs ds hcd _ ih =>
    rw [placeComponents, placeComponents, placeComponent_congr hcd]
    cases placeComponent source root placed c with
    | error e => exact ⟨rfl, nofun⟩
    | ok result =>
      obtain ⟨herror, hplaced⟩ := ih (placed ++ result.2)
      exact ⟨herror, fun hnone => congrArg (result.1 :: ·) (hplaced hnone)⟩

theorem placeComponents_idem (cs : List (Component α)) (placed : List (Point α)) :
    placeComponents source root placed (placeComponents source root placed cs).1 =
      placeComponents source root placed cs := by
  induction cs generalizing placed with
  | nil => rfl
  | cons c cs ih =>
    rw [placeComponents]
    cases h : placeComponent source root placed c with
    | error e => simp [placeComponents, h]
    | ok result =>
      have hagain := (placeComponent_congr (placeComponent_ok h).1).trans h
      simp [placeComponents, hagain, ih]

theorem placeComponents_matched (h : placeComponents source root placed cs = (ds, none)) {k : ℕ}
    (hd : ds[k]? = some d) : ∃ earlier, source.Lists (ds.take k) earlier ∧
      d.Matched source (placed ++ earlier.flatMap Placed.points) := by
  induction cs generalizing ds placed k with
  | nil =>
    cases h
    simp at hd
  | cons c cs ih =>
    rw [placeComponents] at h
    cases hc : placeComponent source root placed c with
    | error e => simp [hc] at h
    | ok result =>
      obtain ⟨d', points⟩ := result
      simp only [hc, Prod.mk.injEq] at h
      obtain ⟨rfl, hnone⟩ := h
      obtain ⟨-, hmatched, id, child, _, htarget, hsource, ⟨below, hbelow, rfl⟩, rfl⟩ :=
        placeComponent_ok hc
      cases k with
      | zero =>
        cases hd
        exact ⟨[], .nil, by simpa using hmatched⟩
      | succ k =>
        obtain ⟨earlier, hearlier, hmatched'⟩ := ih (Prod.ext rfl hnone) hd
        refine ⟨_, .cons htarget hsource hbelow hearlier, ?_⟩
        rw [List.flatMap_append, Placed.flatMap_points_below, ← List.append_assoc]
        exact hmatched'

-- ---------------------------------------------------------------------------
-- All components of a glyph
-- ---------------------------------------------------------------------------

/-- The glyph with its components in place, or why one of them has none. -/
def finalized (g : Glyph α) (root : GlyphId) (source : GlyphSource α) :
    Except ReferenceError (Glyph α) :=
  match g.placeReferences root source with
  | (placed, none) => .ok placed
  | (_, some e) => .error e

variable {g h : Glyph α}

theorem placeReferences_of {error : Option ReferenceError}
    (h : placeComponents source root g.numberedPoints g.components = (cs, error)) :
    g.placeReferences root source = ({ g with components := cs }, error) := by
  rw [placeReferences, h]

theorem finalized_congr (hmoved : g.Moved h) (root : GlyphId) (source : GlyphSource α) :
    h.finalized root source = g.finalized root source := by
  obtain ⟨components, hcomponents, rfl⟩ := hmoved
  obtain ⟨herror, hplaced⟩ :=
    placeComponents_congr hcomponents source root g.numberedPoints
  rcases hcs : placeComponents source root g.numberedPoints g.components with ⟨cs, error⟩
  rcases hds : placeComponents source root g.numberedPoints components with ⟨ds, error'⟩
  rw [hcs, hds] at herror hplaced
  obtain rfl : error' = error := herror
  rw [finalized, finalized, placeReferences_of hcs,
    placeReferences_of (g := { g with components }) hds]
  cases error' with
  | none => simp [show ds = cs from hplaced rfl]
  | some e => rfl

theorem moved_placeReferences (g : Glyph α) (root : GlyphId) (source : GlyphSource α) :
    g.Moved (g.placeReferences root source).1 :=
  ⟨_, placeComponents_moved g.components g.numberedPoints, rfl⟩

theorem placeReferences_idem (g : Glyph α) (root : GlyphId) (source : GlyphSource α) :
    (g.placeReferences root source).1.placeReferences root source =
      g.placeReferences root source :=
  placeReferences_of (placeComponents_idem g.components g.numberedPoints)

/-- The outcome does not depend on where point matches had placed the components before. So the
glyph may be finalized again with the same result, also after a failure part way and with other
glyphs at hand then. Nothing changes but where point matches place components, and a matched point
comes to lie exactly on the one it is matched with, among the points of the glyph itself and of the
components before. -/
theorem placeReferences_eq (g : Glyph α) (root : GlyphId) (source : GlyphSource α) :
    (∀ h, g.Moved h → h.finalized root source = g.finalized root source) ∧
      (g.placeReferences root source).1.placeReferences root source =
        g.placeReferences root source ∧
      (∀ root' source', (g.placeReferences root' source').1.finalized root source =
        g.finalized root source) ∧
      g.Moved (g.placeReferences root source).1 ∧
      ∀ placed, g.placeReferences root source = (placed, none) →
        ∀ k c, placed.components[k]? = some c → ∃ earlier,
          source.HasPoints { placed with components := placed.components.take k } earlier ∧
          c.Matched source earlier := by
  refine ⟨fun h hmoved => finalized_congr hmoved root source, placeReferences_idem g root source,
    fun root' source' => finalized_congr (moved_placeReferences g root' source') root source,
    moved_placeReferences g root source, ?_⟩
  rintro placed hplaced k c hc
  obtain ⟨rfl, hnone⟩ := Prod.mk.inj hplaced
  obtain ⟨earlier, hearlier, hmatched⟩ := placeComponents_matched (Prod.ext rfl hnone) hc
  exact ⟨_, ⟨earlier, hearlier, rfl⟩, hmatched⟩

end Glyph

end Letterform
