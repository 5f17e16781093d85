import Letterform.Number.Double
import Letterform.Proofs.Component.Tree

/-!
# Flattening a glyph

Flattening works for all glyphs whose components can be followed to their ends, also in a font with
circles of references, and replaces the components by moved copies of the figures they lead to.
-/

namespace Letterform

theorem flatMap_filter_eq {β γ : Type} {p : β → Bool} {f : β → List γ} {xs : List β}
    (h : ∀ x ∈ xs, p x = false → f x = []) : (xs.filter p).flatMap f = xs.flatMap f := by
  induction xs with
  | nil => rfl
  | cons x xs ih =>
    obtain ⟨hx, hxs⟩ := List.forall_mem_cons.mp h
    cases hp : p x with
    | true => rw [List.filter_cons_of_pos hp, List.flatMap_cons, List.flatMap_cons, ih hxs]
    | false =>
      rw [List.filter_cons_of_neg (by simp [hp]), List.flatMap_cons, hx hp, ih hxs,
        List.nil_append]

namespace Glyph

variable {α : Type} [Scalar α] {g flat : Glyph α} {root : GlyphId} {source : GlyphSource α}

theorem exists_flatten : (∃ flat, g.flatten root source = .ok flat) ↔
    source.Unrolls root (Component.nestingLimit + 1) g := by
  rw [flatten, exists_bind_pure_ok, exists_mapM_ok, ← GlyphSource.exists_child]
  exact forall₂_congr fun c _ => exists_bind_pure_ok

theorem flatten_copies {components : List (Component α)} {copies : List (List (Figure α))}
    (h : List.Forall₂ (fun c figures => ∃ tree, source.child root c = .ok tree ∧
      (tree.flatMap fun p => (p.below c.transform).figures) = figures) components copies) :
    ∃ placed, source.Lists components placed ∧ copies.flatten = placed.flatMap Placed.figures := by
  induction h with
  | nil => exact ⟨[], .nil, rfl⟩
  | @cons c figures rest copies hc _ ih =>
    obtain ⟨tree, htree, rfl⟩ := hc
    obtain ⟨child, ⟨id, htarget, -, hsource⟩, hunroll⟩ := GlyphSource.child_ok.mp htree
    obtain ⟨below, rfl, hbelow⟩ := GlyphSource.lists_of_unroll hunroll
    obtain ⟨after, hafter, heq⟩ := ih
    refine ⟨_, .cons htarget hsource hbelow hafter, ?_⟩
    rw [List.flatten_cons, List.flatMap_append, List.flatMap_map, heq]

theorem flatten_ok (h : g.flatten root source = .ok flat) :
    ∃ placed, source.Lists g.components placed ∧ flat = { g with
      components := []
      figures := g.figures ++ (placed.flatMap Placed.figures).filter (!·.isEmpty) } := by
  rw [flatten, bind_pure_ok] at h
  obtain ⟨copies, hcopies, rfl⟩ := h
  obtain ⟨placed, hplaced, heq⟩ :=
    flatten_copies ((mapM_ok hcopies).imp fun _ _ => bind_pure_ok.mp)
  exact ⟨placed, hplaced, by rw [heq]⟩

theorem filter_transform (figures : List (Figure α)) (t : Affine α) :
    (figures.map (·.transform t)).filter (!·.isEmpty) =
      (figures.filter (!·.isEmpty)).map (·.transform t) := by
  rw [List.filter_map]
  rfl

/-- Two glyphs that refer to each other cannot be flattened into a third one. -/
example :
    let around (id : GlyphId) : Glyph Float :=
      { Glyph.empty .truetype with components := [⟨.glyph id, .translation 10 0, none, {}⟩] }
    let source : GlyphSource Float := fun id => if id = 1 then around 2 else around 1
    ((around 1).flattenReferences 0 source).2 = some (.recursionLimitExceeded 2) := by
  decide +kernel

end Glyph

end Letterform
