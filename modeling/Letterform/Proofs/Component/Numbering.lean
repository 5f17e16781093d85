import Letterform.Proofs.Component.Flattening
import Letterform.Proofs.Component.PointMatching
import Letterform.Proofs.Number.Rational
import Letterform.Proofs.Record.Transform

/-!
# Points have the same numbers in a flattened glyph

The points that components are placed by are listed without flattening: every glyph's own points are
moved to where the glyph is. Flattening moves figures instead, and then the points of a contour are
found anew, with a decision at each knot whether it follows from its neighbours. For glyphs that were
decoded from records both lead to the same points.
-/

namespace Letterform

variable {α : Type} [Scalar α]

/-- A glyph that was decoded from a record. Its components may have been placed since. -/
inductive Glyph.FromRecord : Glyph α → Prop
  | decode (data : List UInt8) : FromRecord (Record.decode data).glyph
  | place {g : Glyph α} (root : GlyphId) (source : GlyphSource α) :
    FromRecord g → FromRecord (g.placeReferences root source).1

theorem Figure.numberedPoints_of_isEmpty {f : Figure α} (h : f.isEmpty = true) :
    f.numberedPoints = [] := by
  have hnil : f.contours = #[] := Array.isEmpty_iff.mp h
  rw [numberedPoints, hnil]
  rfl

namespace Glyph

variable {g flat : Glyph α} {root : GlyphId} {source : GlyphSource α} {cs ds : List (Component α)}

-- ---------------------------------------------------------------------------
-- Failures
-- ---------------------------------------------------------------------------

/-- Components without point matches are placed up to the first one whose tree cannot be
unrolled. -/
theorem error_placeComponents {β : Type} (f : Component α → List (Placed α) → β)
    (h : ∀ c ∈ cs, c.pointMatch = none) (placed : List (Point α)) (e : ReferenceError) :
    (placeComponents source root placed cs).2 = some e ↔
      (cs.mapM fun c => do
        let tree ← source.child root c
        return f c tree) = .error e := by
  induction cs generalizing placed with
  | nil => simp [placeComponents, pure, Except.pure]
  | cons c cs ih =>
    obtain ⟨hc, hcs⟩ := List.forall_mem_cons.mp h
    rw [placeComponents, List.mapM_cons, bind_error, bind_pure_error]
    cases hchild : source.child root c with
    | error e' => simp [placeComponent, hchild, bind, Except.bind]
    | ok tree =>
      have hmatch (points : List (Point α)) : matchPoints root placed points c = .ok c := by
        unfold matchPoints
        rw [hc]
        rfl
      have hplace : placeComponent source root placed c =
          .ok (c, (tree.flatMap Placed.points).map c.transform.apply) := by
        simp only [placeComponent, hchild, bind_ok, pure_ok, hmatch, Except.ok.injEq,
          exists_eq_left']
      rw [hplace]
      simp only [bind_ok, pure_ok, bind_pure_error, exists_eq_left', reduceCtorEq, false_or, ih hcs,
        Except.ok.injEq]

/-- Without point matches of its own a glyph cannot be finalized if it cannot be flattened, for the
same reason. -/
theorem error_placeReferences (h : ∀ c ∈ g.components, c.pointMatch = none) (e : ReferenceError) :
    (g.placeReferences root source).2 = some e ↔ g.flatten root source = .error e := by
  rw [flatten, bind_pure_error, ← error_placeComponents _ h g.numberedPoints]
  rfl

-- ---------------------------------------------------------------------------
-- Successes
-- ---------------------------------------------------------------------------

theorem placeComponents_append {placed : List (Point α)}
    (h : placeComponents source root placed cs = (ds, none)) :
    ∃ earlier, source.Lists ds earlier ∧ ∀ rest,
      placeComponents source root placed (cs ++ rest) = Prod.map (ds ++ ·) id
        (placeComponents source root (placed ++ earlier.flatMap Placed.points) rest) := by
  induction cs generalizing ds placed with
  | nil =>
    cases h
    exact ⟨[], .nil, fun rest => by simp [Prod.map]⟩
  | cons c cs ih =>
    rw [placeComponents] at h
    cases hc : placeComponent source root placed c with
    | error e => simp [hc] at h
    | ok result =>
      obtain ⟨d, points⟩ := result
      simp only [hc, Prod.mk.injEq] at h
      obtain ⟨rfl, hnone⟩ := h
      obtain ⟨-, -, id, child, _, htarget, hsource, ⟨below, hbelow, rfl⟩, rfl⟩ :=
        placeComponent_ok hc
      obtain ⟨earlier, hearlier, hrest⟩ := ih (Prod.ext rfl hnone)
      refine ⟨_, .cons htarget hsource hbelow hearlier, fun rest => ?_⟩
      rw [List.cons_append, placeComponents, hc]
      dsimp only
      rw [hrest, List.flatMap_append, Placed.flatMap_points_below, ← List.append_assoc]
      rfl

theorem FromRecord.numberedPoints_transform [ExactScalar α] (hg : g.FromRecord) (t : Affine α) :
    ∀ f ∈ g.figures, (f.transform t).numberedPoints = f.numberedPoints.map t.apply := by
  induction hg with
  | decode data => exact Record.numberedPoints_transform_decode t data
  | place _ _ _ ih => exact ih

theorem numberedPoints_figures [ExactScalar α] {p : Placed α} (hp : p.glyph.FromRecord) :
    p.figures.flatMap Figure.numberedPoints = p.points := by
  rw [Placed.figures_eq, Placed.points_eq, numberedPoints_eq_flatMap, List.flatMap_map,
    List.map_flatMap]
  exact List.flatMap_congr fun f hf => hp.numberedPoints_transform p.placement f hf

theorem flatMap_filter_isEmpty (figures : List (Figure α)) :
    (figures.filter (!·.isEmpty)).flatMap Figure.numberedPoints =
      figures.flatMap Figure.numberedPoints :=
  flatMap_filter_eq fun _ _ hf => Figure.numberedPoints_of_isEmpty
    (by rwa [Bool.not_eq_false'] at hf)

end Glyph

namespace Record

/-- A component that is flattened to a vertical line and mirrored. -/
def collapsed : List UInt8 :=
  [255, 255, 0, 0, 0, 0, 0, 0, 0, 0, 0, 0x42, 0, 1, 5, 0, 0, 0, 0xc0, 0]

/-- A component that is turned over its diagonal, and another one that is placed by a point. -/
def turned : List UInt8 :=
  [255, 255, 0, 0, 0, 0, 0, 0, 0, 0, 0, 0xa2, 0, 2, 10, 0, 0, 0, 0x40, 0, 0x40, 0, 0, 0,
    0, 0, 0, 1, 2, 0]

end Record

namespace Glyph

/-- A font where one glyph is a component of another one. -/
def nest : GlyphSource ℚ := fun id =>
  if id = 1 then some (Record.decode Record.motley).glyph
  else if id = 2 then some (Record.decode Record.collapsed).glyph
  else none

/-- A glyph with both of them as components, in their places. -/
def nested : Glyph ℚ := ((Record.decode Record.turned).glyph.placeReferences 3 nest).1

example : (nested.flatten 3 nest).toOption.map (·.numberedPoints) = some
    [⟨0, 5⟩, ⟨-20, 5⟩, ⟨-20, 5⟩, ⟨-25, 5⟩, ⟨-30, 5⟩, ⟨-35, 5⟩, ⟨-42, 5⟩,
      ⟨-20, 5⟩, ⟨0, 25⟩, ⟨0, 25⟩, ⟨5, 30⟩, ⟨10, 35⟩, ⟨15, 40⟩, ⟨22, 47⟩] := by
  decide +kernel

end Glyph

end Letterform
