import Letterform.Component.Placement
import Letterform.Proofs.Except
import Letterform.Proofs.Geometry.Affine

/-!
# The tree of components

The references of a glyph, those of the glyphs they lead to, and so on, form a tree, which has no
end if they lead into a circle. Unrolling it succeeds if every reference leads somewhere and no
reference stands too deep, and then it lists the glyphs of the tree in depth-first order.
-/

namespace Letterform

namespace GlyphSource

variable {α : Type} {source : GlyphSource α} {root id : GlyphId} {levels level : ℕ}
  {g h child : Glyph α} {c : Component α}

-- ---------------------------------------------------------------------------
-- Levels of the tree
-- ---------------------------------------------------------------------------

/-- A glyph stands at a level of the tree below `g`, which is itself at level 0; the glyphs that its
own components refer to are at level 1. -/
inductive InTree (source : GlyphSource α) (g : Glyph α) : ℕ → Glyph α → Prop
  | root : InTree source g 0 g
  | component {level : ℕ} {h child : Glyph α} {c : Component α} {id : GlyphId} :
    InTree source g level h → c ∈ h.components → c.target = .glyph id → source id = some child →
    InTree source g (level + 1) child

theorem InTree.of_component (hc : c ∈ g.components) (htarget : c.target = .glyph id)
    (hsource : source id = some child) (hin : source.InTree child level h) :
    source.InTree g (level + 1) h := by
  induction hin with
  | root => exact .component .root hc htarget hsource
  | component _ hc' htarget' hsource' ih => exact .component ih hc' htarget' hsource'

theorem InTree.exists_component (hin : source.InTree g (level + 1) h) :
    ∃ c ∈ g.components, ∃ id child, c.target = .glyph id ∧ source id = some child ∧
      source.InTree child level h := by
  generalize hlevel : level + 1 = n at hin
  induction hin generalizing level with
  | root => cases hlevel
  | @component n h child c id hin hc htarget hsource ih =>
    obtain rfl := Nat.succ.inj hlevel
    cases level with
    | zero =>
      cases hin
      exact ⟨c, hc, id, child, htarget, hsource, .root⟩
    | succ level =>
      obtain ⟨c', hc', id', child', htarget', hsource', hin'⟩ := ih rfl
      exact ⟨c', hc', id', child', htarget', hsource', .component hin' hc htarget hsource⟩

/-- A component refers to a glyph, which is not the root. -/
def Finds (source : GlyphSource α) (root : GlyphId) (c : Component α) (child : Glyph α) : Prop :=
  ∃ id, c.target = .glyph id ∧ id ≠ root ∧ source id = some child

theorem Finds.unique {child' : Glyph α} (h : source.Finds root c child) {id : GlyphId}
    (htarget : c.target = .glyph id) (hsource : source id = some child') : child' = child := by
  obtain ⟨_, htarget', -, hsource'⟩ := h
  cases htarget.symm.trans htarget'
  exact Option.some.inj (hsource.symm.trans hsource')

/-- All references in the tree below a glyph lead to glyphs other than the root, and the glyphs that
stand so many levels down or deeper have none. -/
structure Unrolls (source : GlyphSource α) (root : GlyphId) (levels : ℕ) (g : Glyph α) :
    Prop where
  refers {level : ℕ} {h : Glyph α} :
    source.InTree g level h → ∀ c ∈ h.components, ∃ child, source.Finds root c child
  ends {level : ℕ} {h : Glyph α} : source.InTree g level h → levels ≤ level → h.components = []

theorem unrolls_zero : source.Unrolls root 0 g ↔ g.components = [] := by
  constructor
  · exact fun h => h.ends .root le_rfl
  · intro hnil
    have hroot {level : ℕ} {h : Glyph α} (hin : source.InTree g level h) : h = g := by
      cases level with
      | zero =>
        cases hin
        rfl
      | succ level =>
        obtain ⟨c, hc, -⟩ := hin.exists_component
        simp [hnil] at hc
    refine ⟨fun hin c hc => ?_, fun hin _ => ?_⟩
    · rw [hroot hin, hnil] at hc
      cases hc
    · rw [hroot hin, hnil]

theorem unrolls_succ : source.Unrolls root (levels + 1) g ↔
    ∀ c ∈ g.components, ∃ child, source.Finds root c child ∧ source.Unrolls root levels child := by
  constructor
  · intro h c hc
    obtain ⟨child, hfinds⟩ := h.refers .root c hc
    have ⟨id, htarget, _, hsource⟩ := hfinds
    refine ⟨child, hfinds, fun hin => ?_, fun hin hle => ?_⟩
    · exact h.refers (hin.of_component hc htarget hsource)
    · exact h.ends (hin.of_component hc htarget hsource) (Nat.succ_le_succ hle)
  · intro h
    have hbelow {level : ℕ} {p : Glyph α} (hin : source.InTree g (level + 1) p) :
        ∃ child, source.Unrolls root levels child ∧ source.InTree child level p := by
      obtain ⟨c, hc, id, child, htarget, hsource, hin⟩ := hin.exists_component
      obtain ⟨child', hfinds, hchild⟩ := h c hc
      obtain rfl := hfinds.unique htarget hsource
      exact ⟨child, hchild, hin⟩
    constructor
    · intro level p hin c hc
      cases level with
      | zero =>
        cases hin
        obtain ⟨child, hfinds, -⟩ := h c hc
        exact ⟨child, hfinds⟩
      | succ level =>
        obtain ⟨child, hchild, hin⟩ := hbelow hin
        exact hchild.refers hin c hc
    · intro level p hin hle
      cases level with
      | zero => cases hle
      | succ level =>
        obtain ⟨child, hchild, hin⟩ := hbelow hin
        exact hchild.ends hin (Nat.le_of_succ_le_succ hle)

-- ---------------------------------------------------------------------------
-- When unrolling succeeds
-- ---------------------------------------------------------------------------

theorem glyphId_ok : c.glyphId = .ok id ↔ c.target = .glyph id := by
  unfold Component.glyphId
  split <;> simp_all

theorem lookup_ok : source.lookup root id = .ok child ↔ id ≠ root ∧ source id = some child := by
  unfold lookup
  split
  · simp_all
  · split <;> simp_all

theorem bind_lookup_ok {β : Type} {f : Glyph α → Except ReferenceError β} {b : β} :
    (do
      let child ← source.lookup root (← c.glyphId)
      f child) = .ok b ↔ ∃ child, source.Finds root c child ∧ f child = .ok b := by
  simp only [bind_ok, glyphId_ok, lookup_ok, Finds]
  constructor
  · rintro ⟨id, htarget, child, ⟨hne, hsource⟩, hb⟩
    exact ⟨child, ⟨id, htarget, hne, hsource⟩, hb⟩
  · rintro ⟨child, ⟨id, htarget, hne, hsource⟩, hb⟩
    exact ⟨id, htarget, child, ⟨hne, hsource⟩, hb⟩

theorem exists_unroll :
    (∃ tree, source.unroll root levels g = .ok tree) ↔ source.Unrolls root levels g := by
  induction levels generalizing g with
  | zero =>
    rw [unrolls_zero, unroll]
    cases hg : g.components with
    | nil => simp
    | cons c rest => simp [bind_ok]
  | succ levels ih =>
    rw [unroll, exists_bind_pure_ok, exists_mapM_ok, unrolls_succ]
    refine forall₂_congr fun c _ => ?_
    simp only [bind_lookup_ok, ← ih]
    rw [exists_comm]
    simp only [exists_and_left, exists_bind_pure_ok]

theorem child_ok {tree : List (Placed α)} : source.child root c = .ok tree ↔
    ∃ child, source.Finds root c child ∧
      source.unroll root Component.nestingLimit child = .ok tree := bind_lookup_ok

theorem exists_child :
    (∀ c ∈ g.components, ∃ tree, source.child root c = .ok tree) ↔
      source.Unrolls root (Component.nestingLimit + 1) g := by
  rw [unrolls_succ]
  refine forall₂_congr fun c _ => ?_
  simp only [child_ok, ← exists_unroll]
  rw [exists_comm]
  simp only [exists_and_left]

-- ---------------------------------------------------------------------------
-- What is unrolled
-- ---------------------------------------------------------------------------

/-- The glyphs below some components in depth-first order, each before those below it, with the
transforms on the way to them. -/
inductive Lists (source : GlyphSource α) : List (Component α) → List (Placed α) → Prop
  | nil : Lists source [] []
  | cons {c : Component α} {rest : List (Component α)} {id : GlyphId} {child : Glyph α}
    {below after : List (Placed α)} :
    c.target = .glyph id → source id = some child → Lists source child.components below →
    Lists source rest after →
    Lists source (c :: rest) (({ glyph := child } :: below).map (·.below c.transform) ++ after)

theorem lists_of_unroll {tree : List (Placed α)} (h : source.unroll root levels g = .ok tree) :
    ∃ below, tree = { glyph := g } :: below ∧ source.Lists g.components below := by
  induction levels generalizing g tree with
  | zero =>
    rw [unroll] at h
    cases hg : g.components with
    | nil =>
      rw [hg] at h
      cases h
      exact ⟨[], rfl, .nil⟩
    | cons c rest => simp [hg, bind_ok] at h
  | succ levels ih =>
    rw [unroll, bind_pure_ok] at h
    obtain ⟨trees, htrees, rfl⟩ := h
    refine ⟨trees.flatten, rfl, ?_⟩
    have hcomponents := mapM_ok htrees
    clear htrees
    generalize g.components = components at hcomponents
    induction hcomponents with
    | nil => exact .nil
    | @cons c placed rest trees hc _ ih' =>
      obtain ⟨child, ⟨id, htarget, -, hsource⟩, hchild⟩ := bind_lookup_ok.mp hc
      obtain ⟨tree, htree, rfl⟩ := bind_pure_ok.mp hchild
      obtain ⟨below, rfl, hbelow⟩ := ih htree
      exact .cons htarget hsource hbelow ih'

theorem Lists.unique {components : List (Component α)} {placed placed' : List (Placed α)}
    (h : source.Lists components placed) (h' : source.Lists components placed') :
    placed = placed' := by
  induction h generalizing placed' with
  | nil =>
    cases h'
    rfl
  | cons htarget hsource _ _ ihbelow ihafter =>
    cases h' with
    | cons htarget' hsource' hbelow' hafter' =>
      cases htarget.symm.trans htarget'
      cases hsource.symm.trans hsource'
      rw [ihbelow hbelow', ihafter hafter']

theorem Lists.mem_source {components : List (Component α)} {placed : List (Placed α)}
    (h : source.Lists components placed) : ∀ p ∈ placed, ∃ id, source id = some p.glyph := by
  induction h with
  | nil => nofun
  | @cons c rest id child below after _ hsource _ _ ihbelow ihafter =>
    intro p hp
    rcases List.mem_append.mp hp with hp | hp
    · obtain ⟨q, hq, rfl⟩ := List.mem_map.mp hp
      rcases List.mem_cons.mp hq with rfl | hq
      · exact ⟨id, hsource⟩
      · exact ihbelow q hq
    · exact ihafter p hp

/-- The points of a glyph in the order of their numbers: its own and those of its components,
where these are placed. -/
def HasPoints (source : GlyphSource α) [Scalar α] (g : Glyph α) (points : List (Point α)) : Prop :=
  ∃ placed, source.Lists g.components placed ∧
    points = g.numberedPoints ++ placed.flatMap Placed.points

theorem hasPoints_child [Scalar α] {tree : List (Placed α)}
    (h : source.child root c = .ok tree) : ∃ id child, c.target = .glyph id ∧
      source id = some child ∧ source.HasPoints child (tree.flatMap Placed.points) := by
  obtain ⟨child, ⟨id, htarget, -, hsource⟩, hunroll⟩ := child_ok.mp h
  obtain ⟨below, rfl, hbelow⟩ := lists_of_unroll hunroll
  exact ⟨id, child, htarget, hsource, below, hbelow, rfl⟩

end GlyphSource

-- ---------------------------------------------------------------------------
-- Where a glyph in the tree comes to lie
-- ---------------------------------------------------------------------------

namespace Placed

variable {α : Type} [Scalar α]

/-- The composition of the transforms on the way to the root. -/
def placement (p : Placed α) : Affine α := p.path.foldl (fun u t => t.comp u) Affine.identity

theorem points_below (t : Affine α) (p : Placed α) :
    (p.below t).points = p.points.map t.apply := by
  simp [points, below]

theorem flatMap_points_below (t : Affine α) (tree : List (Placed α)) :
    (tree.map (·.below t)).flatMap points = (tree.flatMap points).map t.apply := by
  simp [List.flatMap_map, List.map_flatMap, points_below]

theorem foldl_map_act {β : Type} (act : Affine α → β → β) (hidentity : act Affine.identity = id)
    (hcomp : ∀ t u, act (t.comp u) = act t ∘ act u) (p : Placed α) (xs : List β) :
    p.path.foldl (fun xs t => xs.map (act t)) xs = xs.map (act p.placement) := by
  obtain ⟨g, path⟩ := p
  induction path using List.reverseRecOn with
  | nil => simp [placement, hidentity]
  | append_singleton path t ih =>
    simp only [placement] at ih
    simp [placement, ih, hcomp]

variable [ExactScalar α] (p : Placed α)

theorem figures_eq : p.figures = p.glyph.figures.map (·.transform p.placement) :=
  foldl_map_act (fun t (f : Figure α) => f.transform t) (funext Figure.transform_identity)
    (fun t u => funext fun f => f.transform_comp t u) p p.glyph.figures

theorem points_eq : p.points = p.glyph.numberedPoints.map p.placement.apply :=
  foldl_map_act Affine.apply Affine.apply_identity Affine.apply_comp p p.glyph.numberedPoints

end Placed

end Letterform
