import Letterform.Proofs.Charstring.Plotting
import Letterform.Proofs.Charstring.Retracing

/-!
# The traces of plotted outlines

What is traced of an outline that has been plotted on the grid is the outline itself: no point of it
moves as it is rounded. Drawn again, it has these traces once more, unless a contour comes back to
its start by a line or brings a mask there.
-/

namespace Letterform

variable {α : Type} [Scalar α]

open Charstring (Leg Trace)

-- ---------------------------------------------------------------------------
-- Rounding
-- ---------------------------------------------------------------------------

namespace Charstring

/-- The start of a contour and the points that its legs lead to. -/
def Trace.points (t : Trace α) : List (Point α) := t.start :: t.legs.flatMap Leg.points

omit [Scalar α] in
theorem Trace.points_conveyed (masks : HintMask → Option HintMask) (t : Trace α) :
    (t.conveyed masks).points = t.points := by
  rw [Trace.points, Trace.points, Trace.conveyed, List.flatMap_map]
  rfl

def Holds (version : Version) (p : Point α) : Prop := roundedPoint version p = .ok p

variable {version : Version}

theorem legsFrom_of_holds {start : Point α} {strokes : List (Stroke α)}
    (hlinked : Drawable start (strokes.map Stroke.leg))
    (h : ∀ p ∈ (strokes.map Stroke.leg).flatMap Leg.points, Holds version p) :
    legsFrom version start strokes = .ok (strokes.map Stroke.leg) := by
  induction strokes generalizing start with
  | nil => rfl
  | cons s strokes ih =>
    obtain ⟨hstart, -, hlinked⟩ := hlinked
    rw [List.map_cons, List.flatMap_cons, List.forall_mem_append] at h
    obtain ⟨hfirst, h⟩ := h
    have hrest : legsFrom version s.stop.anchor strokes = .ok (strokes.map Stroke.leg) :=
      ih hlinked h
    have hstart : s.start.anchor = start := hstart
    unfold Leg.points Stroke.leg at hfirst
    rw [List.map_cons, Stroke.leg, hstart, legsFrom_cons_ok]
    cases hline : s.isLine with
    | true =>
      simp only [hline, if_true, List.forall_mem_singleton] at hfirst
      exact ⟨_, _, .line hline hfirst, hrest, rfl⟩
    | false =>
      simp only [hline, Bool.false_eq_true, if_false, List.forall_mem_cons] at hfirst
      obtain ⟨hc1, hc2, hstop, -⟩ := hfirst
      exact ⟨_, _, .curve hline hc1 hc2 hstop, hrest, rfl⟩

theorem Trace.ofContour_of_holds {f : Figure α} {c : Contour}
    (hlinked : Drawable (f.trace c).start (f.trace c).legs)
    (h : ∀ p ∈ (f.trace c).points, Holds version p) :
    Trace.ofContour version f c = .ok (f.trace c) := by
  obtain ⟨hstart, hlegs⟩ := List.forall_mem_cons.mp h
  have hstart : roundedPoint version (f.knot c.first).anchor = .ok (f.knot c.first).anchor := hstart
  have hlegs : legsFrom version (f.knot c.first).anchor (f.strokes c) =
      .ok ((f.strokes c).map Stroke.leg) := legsFrom_of_holds hlinked hlegs
  exact Trace.ofContour_ok.mpr ⟨_, _, hstart, hlegs, rfl⟩

theorem exists_rounded_of_legsFrom {start : Point α} {strokes : List (Stroke α)}
    {legs : List (Leg α)} (h : legsFrom version start strokes = .ok legs) :
    ∀ p ∈ (strokes.map Stroke.leg).flatMap Leg.points, ∃ q, roundedPoint version p = .ok q := by
  induction strokes generalizing start legs with
  | nil => exact List.forall_mem_nil _
  | cons s strokes ih =>
    rw [List.map_cons, List.flatMap_cons, List.forall_mem_append]
    unfold Leg.points Stroke.leg
    obtain ⟨leg, rest, hleg, hrest, -⟩ := legsFrom_cons_ok.mp h
    cases hleg with
    | line hline hstop =>
      rw [hline]
      exact ⟨List.forall_mem_singleton.mpr ⟨_, hstop⟩, ih hrest⟩
    | curve hline hc1 hc2 hstop =>
      rw [hline]
      simp only [Bool.false_eq_true, if_false, List.forall_mem_cons]
      exact ⟨⟨⟨_, hc1⟩, ⟨_, hc2⟩, ⟨_, hstop⟩, List.forall_mem_nil _⟩, ih hrest⟩

theorem exists_rounded_of_ofContour {f : Figure α} {c : Contour} {t : Trace α}
    (h : Trace.ofContour version f c = .ok t) :
    ∀ p ∈ (f.trace c).points, ∃ q, roundedPoint version p = .ok q := by
  obtain ⟨start, legs, hstart, hlegs, -⟩ := Trace.ofContour_ok.mp h
  exact List.forall_mem_cons.mpr ⟨⟨start, hstart⟩, exists_rounded_of_legsFrom hlegs⟩

end Charstring

-- ---------------------------------------------------------------------------
-- Routes
-- ---------------------------------------------------------------------------

def Glyph.traces (g : Glyph α) : List (Trace α) := g.contours.map fun (f, c) => f.trace c

theorem Stroke.snappedPoints_eq (s : Stroke α) :
    s.snappedPoints = s.leg.points.map (·.map Scalar.snap) := by
  unfold Stroke.snappedPoints Stroke.leg Leg.points
  cases s.isLine <;> rfl

theorem Glyph.route_eq (g : Glyph α) :
    g.route = g.traces.flatMap fun t => t.points.map (·.map Scalar.snap) := by
  unfold Glyph.route Glyph.traces
  rw [List.flatMap_map]
  refine List.flatMap_congr fun (f, c) _ => ?_
  simp only [Trace.points, List.map_cons, List.map_flatMap, Figure.trace, List.flatMap_map,
    ← Stroke.snappedPoints_eq, Figure.strokes_eq]

/-- Every point of an outline without an overlong displacement is a number when it is rounded. -/
theorem Glyph.IsDense.beq_self [LawfulScalar α] {g : Glyph α} (h : g.IsDense) :
    ∀ t ∈ g.traces, ∀ p ∈ t.points, (Scalar.snap p.x == Scalar.snap p.x) = true ∧
      (Scalar.snap p.y == Scalar.snap p.y) = true := by
  have hroute {a : Point α} {route : List (Point α)} (h : (a :: route).IsChain Point.IsNear) :
      ∀ q ∈ route, (q.x == q.x) = true ∧ (q.y == q.y) = true := by
    induction route generalizing a with
    | nil => exact nofun
    | cons q route ih =>
      obtain ⟨hnear, h⟩ := List.isChain_cons_cons.mp h
      exact List.forall_mem_cons.mpr ⟨⟨Charstring.beq_self_of_abs_sub_lt hnear.1,
        Charstring.beq_self_of_abs_sub_lt hnear.2⟩, ih h⟩
  intro t ht p hp
  refine hroute h (p.map Scalar.snap) ?_
  rw [g.route_eq]
  exact List.mem_flatMap.mpr ⟨t, ht, List.mem_map_of_mem hp⟩

-- ---------------------------------------------------------------------------
-- Plotted outlines
-- ---------------------------------------------------------------------------

theorem Figure.isLine_of_isClosing {f : Figure α} {c : Contour} {s : Stroke α}
    (hs : s ∈ f.strokes c) (hclosing : s.isClosing = true) : s.isLine = false := by
  obtain ⟨⟨name, i⟩, -, hs⟩ := List.mem_filterMap.mp hs
  dsimp only at hs
  split_ifs at hs with hskip
  cases hs
  have hclosing : (f.isClosed c && i + 1 == (f.contourSegments c).length) = true := hclosing
  rw [hclosing, Bool.true_and, Bool.not_eq_true] at hskip
  exact hskip

/-- Between knots with their control points off their anchors there is a leg that can be drawn. -/
theorem Knot.IsPlotted.leg {k k' : Knot Float} (hk : k.IsPlotted) (hk' : k'.IsPlotted) :
    (k.leg k').IsDrawable := by
  have hout (h : (k.leaving == k.anchor) = true) : k.controlOut = none := by
    cases hc : k.controlOut with
    | none => rfl
    | some c =>
      have hne := (hk.controlOut c hc).2
      rw [show k.leaving = c by rw [Knot.leaving, hc]; rfl, hne] at h
      cases h
  have hin (h : (k'.arriving == k'.anchor) = true) : k'.controlIn = none := by
    cases hc : k'.controlIn with
    | none => rfl
    | some c =>
      have hne := (hk'.controlIn c hc).2
      rw [show k'.arriving = c by rw [Knot.arriving, hc]; rfl, hne] at h
      cases h
  intro c hc
  unfold Knot.leg at hc ⊢
  dsimp only at hc ⊢
  split_ifs at hc with hline
  · cases hc
  cases hc
  refine ⟨fun h => ?_, fun h => ?_, ?_⟩
  · rw [Knot.leaving, hout h]
    rfl
  · rw [Knot.arriving, hin h]
    rfl
  · rw [Bool.eq_false_iff]
    intro h
    obtain ⟨hleaving, harriving⟩ := Bool.and_eq_true_iff.mp h
    rw [hout hleaving, hin harriving] at hline
    exact hline rfl

theorem Charstring.Drawable.conveyed {start : Point α} {legs : List (Leg α)}
    (h : Drawable start legs) (masks : HintMask → Option HintMask) :
    Drawable start (legs.map fun l => { l with mask := l.mask.bind masks }) := by
  induction legs generalizing start with
  | nil => trivial
  | cons l legs ih => exact ⟨h.1, h.2.1, ih h.2.2⟩

namespace Figure

variable {f : Figure Float} {c : Contour}

theorem IsPlotted.drawable_inner (hf : f.IsPlotted) (first count : ℕ) :
    let legs := (List.range' first count).map fun i => (f.knot i).leg (f.knot (i + 1))
    Charstring.Drawable (f.knot first).anchor legs ∧
      Charstring.endOf (f.knot first).anchor legs = (f.knot (first + count)).anchor := by
  induction count generalizing first with
  | zero => exact ⟨trivial, rfl⟩
  | succ count ih =>
    obtain ⟨hlegs, hend⟩ := ih (first + 1)
    rw [Nat.add_assoc, Nat.add_comm 1] at hend
    exact ⟨⟨rfl, (hf _).leg (hf _), hlegs⟩, hend⟩

theorem IsTraced.drawable (h : f.IsTraced c) (hf : f.IsPlotted) :
    Charstring.Drawable (f.trace c).start (f.trace c).legs := by
  obtain ⟨hinner, hend⟩ := hf.drawable_inner c.first (c.last - c.first)
  rw [Nat.add_sub_cancel' h.path.le] at hend
  rw [h.legs]
  refine Charstring.drawable_append.mpr ⟨hinner, ?_⟩
  have hstop : Charstring.endOf (f.trace c).start (f.inner c) = (f.knot c.last).anchor := hend
  rw [hstop, returning]
  dsimp only
  split_ifs
  · exact ⟨rfl, (hf c.last).leg (hf c.first), trivial⟩
  · trivial

theorem IsPlotted.points (hf : f.IsPlotted) (c : Contour) :
    ∀ p ∈ (f.trace c).points, p.IsPlotted := by
  refine List.forall_mem_cons.mpr ⟨(hf c.first).anchor, fun p hp => ?_⟩
  obtain ⟨l, hl, hp⟩ := List.mem_flatMap.mp hp
  obtain ⟨s, hs, rfl⟩ := List.mem_map.mp hl
  obtain ⟨i, j, hstart, hstop⟩ := exists_knots (f.strokes_eq c ▸ hs)
  unfold Stroke.leg Leg.points at hp
  rw [hstart, hstop] at hp
  cases hline : s.isLine with
  | true =>
    simp only [hline, if_true, List.mem_singleton] at hp
    exact hp ▸ (hf j).anchor
  | false =>
    simp only [hline, Bool.false_eq_true, if_false, List.mem_cons, List.not_mem_nil, or_false] at hp
    rcases hp with rfl | rfl | rfl
    · exact (hf i).leaving
    · exact (hf j).arriving
    · exact (hf j).anchor

/-- Unless it comes back to its start by a line or brings a mask there that is wanted, a plotted
contour has the same trace when it is drawn again. -/
theorem IsTraced.isDrawable_conveyed (h : f.IsTraced c) (hf : f.IsPlotted)
    {masks : HintMask → Option HintMask} (hreturn : ∀ s ∈ (f.strokes c).getLast?,
      s.isClosing = false → (f.knot c.first).anchor.isClose s.stop.anchor = true →
        s.isLine = false ∧ s.stop.mask.bind masks = none) :
    ((f.trace c).conveyed masks).IsDrawable := by
  refine ⟨(h.drawable hf).conveyed masks, fun hclose => ?_⟩
  have hlegs : ((f.trace c).conveyed masks).legs =
      (f.strokes c).map fun s => { s.leg with mask := s.leg.mask.bind masks } := List.map_map
  cases hlast : (f.strokes c).getLast? with
  | none =>
    rw [List.getLast?_eq_none_iff] at hlast
    rw [Trace.stop, hlegs, hlast]
    exact ⟨rfl, by rintro _ ⟨⟩⟩
  | some s =>
    have hs := List.mem_of_getLast? hlast
    obtain ⟨_, j, -, hstop⟩ := exists_knots (f.strokes_eq c ▸ hs)
    have hmap : ((f.trace c).conveyed masks).legs.getLast? =
        some { s.leg with mask := s.leg.mask.bind masks } := by
      rw [hlegs, List.getLast?_map, hlast]
      rfl
    have heq : ((f.trace c).conveyed masks).stop = s.stop.anchor := by
      rw [Trace.stop, hmap]
      rfl
    rw [heq] at hclose ⊢
    refine ⟨?_, fun l hl => ?_⟩
    · rw [hstop] at hclose ⊢
      exact ((hf c.first).anchor.eq_of_isClose (hf j).anchor hclose).symm
    · obtain rfl := Option.some.inj (hmap.symm.trans hl)
      unfold Stroke.leg
      dsimp only
      cases hclosing : s.isClosing with
      | true =>
        rw [isLine_of_isClosing hs hclosing]
        exact ⟨rfl, rfl⟩
      | false =>
        obtain ⟨hline, hmask⟩ := hreturn s hlast hclosing hclose
        rw [hline]
        exact ⟨rfl, hmask⟩

end Figure

-- ---------------------------------------------------------------------------
-- Plotted traces
-- ---------------------------------------------------------------------------

namespace Builder.IsPlotted

variable {b : Builder Float} {masks : HintMask → Option HintMask}

theorem drawLeg (h : b.IsPlotted) {l : Leg Float} (hl : ∀ p ∈ l.points, p.IsPlotted) :
    (l.draw masks b).IsPlotted := by
  unfold Leg.draw
  unfold Leg.points at hl
  refine IsPlotted.mark ?_ _
  cases hcontrols : l.controls with
  | none =>
    rw [hcontrols] at hl
    exact h.lineTo (List.forall_mem_singleton.mp hl)
  | some controls =>
    rw [hcontrols] at hl
    simp only [List.forall_mem_cons] at hl
    obtain ⟨h1, h2, hp, -⟩ := hl
    exact h.curveTo h1 h2 hp

theorem drawTrace (h : b.IsPlotted) {t : Trace Float} (ht : ∀ p ∈ t.points, p.IsPlotted) :
    (t.draw masks b).IsPlotted := by
  obtain ⟨hstart, hlegs⟩ := List.forall_mem_cons.mp ht
  have hmoved : ((b.moveTo t.start).mark (t.mask.bind masks)).IsPlotted :=
    (h.moveTo hstart).mark _
  unfold Trace.draw
  generalize t.legs = legs at hlegs
  generalize (b.moveTo t.start).mark (t.mask.bind masks) = b at hmoved
  induction legs generalizing b with
  | nil => exact hmoved
  | cons l legs ih =>
    rw [List.flatMap_cons, List.forall_mem_append] at hlegs
    exact ih hlegs.2 _ (hmoved.drawLeg hlegs.1)

theorem foldl_drawTrace (h : b.IsPlotted) {ts : List (Trace Float)}
    (hts : ∀ t ∈ ts, ∀ p ∈ t.points, p.IsPlotted) :
    (ts.foldl (Trace.draw masks) b).IsPlotted := by
  induction ts generalizing b with
  | nil => exact h
  | cons t ts ih =>
    obtain ⟨ht, hts⟩ := List.forall_mem_cons.mp hts
    exact ih (h.drawTrace ht) hts

end Builder.IsPlotted

-- ---------------------------------------------------------------------------
-- Plotted glyphs
-- ---------------------------------------------------------------------------

namespace Glyph

/-- A glyph of plotted figures with all of their knots on contours. -/
def IsPlotted (g : Glyph Float) : Prop := ∀ f ∈ g.figures, f.IsPlotted ∧ f.IsTiled f.knots.size

variable {g : Glyph Float}

theorem IsPlotted.contour (h : g.IsPlotted) {f : Figure Float} {c : Contour}
    (hfc : (f, c) ∈ g.contours) : f.IsPlotted ∧ f.IsTraced c := by
  obtain ⟨f', hf, hpair⟩ := List.mem_flatMap.mp hfc
  obtain ⟨c', hc, heq⟩ := List.mem_map.mp hpair
  obtain ⟨rfl, rfl⟩ := Prod.mk.inj heq
  exact ⟨(h _ hf).1, (h _ hf).2.traced _ hc⟩

theorem IsPlotted.points (h : g.IsPlotted) : ∀ t ∈ g.traces, ∀ p ∈ t.points, p.IsPlotted := by
  intro t ht
  obtain ⟨⟨f, c⟩, hfc, rfl⟩ := List.mem_map.mp ht
  exact (h.contour hfc).1.points c

end Glyph

namespace Charstring

variable {version : Version} {g : Glyph Float}

theorem holds_of_isPlotted (hversion : version ≠ .type1) {p : Point Float} (hp : p.IsPlotted)
    (hrounded : ∃ q, roundedPoint version p = .ok q)
    (hx : (Scalar.snap p.x == Scalar.snap p.x) = true)
    (hy : (Scalar.snap p.y == Scalar.snap p.y) = true) : Holds version p := by
  obtain ⟨q, hq⟩ := hrounded
  obtain ⟨rfl, hxl, hyl⟩ := roundedPoint_ok hversion hq
  have hlimit : Double.StandsFor coordinateLimit ((65536 * 32767 : ℤ) / 65536) :=
    isFixed_coordinateLimit (α := Float)
  have hsame : p.map Scalar.snap = p := by
    obtain ⟨x, y⟩ := p
    exact congrArg₂ Point.mk (hp.x.snap_eq hx hlimit hxl) (hp.y.snap_eq hy hlimit hyl)
  rwa [hsame] at hq

theorem traces_of_holds (hg : g.IsPlotted)
    (hholds : ∀ t ∈ g.traces, ∀ p ∈ t.points, Holds version p) :
    traces version g = .ok g.traces := by
  refine mapM_of_forall₂ (List.forall₂_map_right_iff.mpr (List.forall₂_same.mpr ?_))
  intro (f, c) hfc
  obtain ⟨hf, hc⟩ := hg.contour hfc
  exact Trace.ofContour_of_holds (hc.drawable hf) (hholds _ (List.mem_map_of_mem hfc))

theorem traces_eq (hversion : version ≠ .type1) {ts : List (Trace Float)}
    (h : traces version g = .ok ts) (hg : g.IsPlotted) (hdense : g.IsDense) :
    ts = g.traces ∧ ∀ t ∈ g.traces, ∀ p ∈ t.points, Holds version p := by
  have hholds : ∀ t ∈ g.traces, ∀ p ∈ t.points, Holds version p := by
    intro t ht p hp
    obtain ⟨hx, hy⟩ := hdense.beq_self t ht p hp
    obtain ⟨⟨f, c⟩, hfc, rfl⟩ := List.mem_map.mp ht
    obtain ⟨t, -, ht⟩ := exists_of_forall₂ (mapM_ok h).flip hfc
    exact holds_of_isPlotted hversion ((hg.contour hfc).1.points c p hp)
      (exists_rounded_of_ofContour ht p hp) hx hy
  rw [traces_of_holds hg hholds] at h
  exact ⟨(Except.ok.inj h).symm, hholds⟩

end Charstring

end Letterform
