import Letterform.Proofs.Component.Numbering
import Letterform.Proofs.Outline.LeftOut
import Letterform.Proofs.Record.Maxima

/-!
# What a composite counts of its leaves

The points that a composite record counts for are found anew among its flattened figures. A point of
a leaf that stands in the record of the leaf may come so close to the middle of its neighbours when
it is placed that it is left out there. Nothing else of the leaves is missed, and so nothing at all
if their points on the curve have numbers.
-/

namespace Letterform

variable {α : Type} [Scalar α]

-- ---------------------------------------------------------------------------
-- Points that are lost on the way
-- ---------------------------------------------------------------------------

theorem count_false_le {first second : List Bool} (h : first.length = second.length) :
    first.count false ≤ second.count false + (first.zip second).count (false, true) := by
  induction first generalizing second with
  | nil => exact Nat.zero_le _
  | cons a first ih =>
    obtain ⟨b, second, rfl⟩ := List.exists_cons_of_length_eq_add_one h.symm
    have hrest := ih (Nat.succ.inj h)
    rw [List.zip_cons_cons, List.count_cons, List.count_cons, List.count_cons]
    cases a <;> cases b <;> simp <;> omega

namespace Placed

variable (p : Placed α)

def move (f : Figure α) : Figure α := p.path.foldl (fun f t => f.transform t) f

theorem move_cons (g : Glyph α) (t : Affine α) (path : List (Affine α)) (f : Figure α) :
    (⟨g, t :: path⟩ : Placed α).move f = (⟨g, path⟩ : Placed α).move (f.transform t) := rfl

theorem figures_eq_map : p.figures = p.glyph.figures.map p.move := by
  have hfold (path : List (Affine α)) (figures : List (Figure α)) :
      path.foldl (fun figures t => figures.map (·.transform t)) figures =
        figures.map fun f => path.foldl (fun f t => f.transform t) f := by
    induction path generalizing figures with
    | nil => simp
    | cons t path ih => rw [List.foldl_cons, ih, List.map_map]; rfl
  exact hfold p.path p.glyph.figures

theorem move_induction {β : Type} (part : Figure α → β)
    (h : ∀ f t, part (f.transform t) = part f) (f : Figure α) : part (p.move f) = part f := by
  obtain ⟨g, path⟩ := p
  induction path generalizing f with
  | nil => rfl
  | cons t path ih => rw [move_cons, ih, h]

theorem map_mark_allPoints_move (f : Figure α) (c : Contour) :
    ((p.move f).allPoints c).map OutlinePoint.mark = (f.allPoints c).map OutlinePoint.mark :=
  p.move_induction (fun f => (f.allPoints c).map OutlinePoint.mark)
    (fun f t => f.map_mark_allPoints_transform t c) f

theorem length_leftOut_move (f : Figure α) (c : Contour) :
    (f.leftOut c).length = ((p.move f).leftOut c).length := by
  have hlength := congrArg List.length (p.map_mark_allPoints_move f c)
  rw [List.length_map, List.length_map] at hlength
  rw [Figure.leftOut, Figure.leftOut, OutlinePoint.length_leftOut, OutlinePoint.length_leftOut,
    hlength]

/-- The number of points of a contour that are only left out where it is placed. -/
def lostFrom (f : Figure α) (c : Contour) : ℕ :=
  ((f.leftOut c).zip ((p.move f).leftOut c)).count (false, true)

/-- The number of points of the glyph's own contours that are only left out where it is placed. -/
def lost : ℕ := (p.glyph.contours.map fun (f, c) => p.lostFrom f c).sum

theorem length_outlinePoints_le (f : Figure α) (c : Contour) :
    (f.outlinePoints c).length ≤ ((p.move f).outlinePoints c).length + p.lostFrom f c := by
  rw [Figure.length_outlinePoints, Figure.length_outlinePoints]
  exact count_false_le (p.length_leftOut_move f c)

/-- A point that stands in a record and is no longer left out wherever it is, since it has a number. -/
theorem lostFrom_eq_zero {f : Figure α} {c : Contour}
    (h : ∀ q ∈ f.outlinePoints c, q.onCurve = true → q.number.isSome = true) :
    p.lostFrom f c = 0 := by
  refine List.count_eq_zero.mpr fun hmem => ?_
  obtain ⟨i, hi, heq⟩ := List.mem_iff_getElem.mp hmem
  rw [List.length_zip, lt_min_iff] at hi
  rw [List.getElem_zip, Prod.mk.injEq] at heq
  obtain ⟨q, hq, hstays⟩ := OutlinePoint.exists_getElem_of_leftOut
    (List.getElem?_eq_some_iff.mpr ⟨hi.1, heq.1⟩)
  obtain ⟨q', hq', hlost⟩ := OutlinePoint.exists_getElem_of_leftOut
    (List.getElem?_eq_some_iff.mpr ⟨hi.2, heq.2⟩)
  have hmark := congrArg (·[i]?) (p.map_mark_allPoints_move f c)
  rw [List.getElem?_map, List.getElem?_map, hq, hq'] at hmark
  obtain ⟨honCurve, hnumber⟩ := Prod.mk.inj (Option.some.inj hmark)
  obtain ⟨_, _, _, _, himplied⟩ := OutlinePoint.exists_isImplied hlost
  obtain ⟨hon, hnone, -⟩ := OutlinePoint.isImplied_iff.mp himplied
  have hsome := h q ((f.perm_outlinePoints c).mem_iff.mpr (OutlinePoint.mem_dropImplied.mpr hstays))
    (honCurve.symm.trans hon)
  rw [← hnumber, hnone] at hsome
  cases hsome

theorem lost_eq_zero
    (h : ∀ outline ∈ p.glyph.outlines, ∀ q ∈ outline, q.onCurve = true → q.number.isSome = true) :
    p.lost = 0 := by
  refine List.sum_eq_zero fun n hn => ?_
  obtain ⟨⟨f, c⟩, hcontour, rfl⟩ := List.mem_map.mp hn
  exact p.lostFrom_eq_zero (h _ (List.mem_map_of_mem hcontour))

theorem length_numberedPoints_le :
    p.glyph.numberedPoints.length ≤ (p.figures.flatMap Figure.numberedPoints).length + p.lost := by
  have hcontours (f : Figure α) : (p.move f).contours = f.contours :=
    p.move_induction Figure.contours (fun _ _ => rfl) f
  have hmoved : p.figures.flatMap Figure.numberedPoints =
      p.glyph.contours.flatMap fun (f, c) => ((p.move f).outlinePoints c).map (·.position) := by
    rw [figures_eq_map, List.flatMap_map, Glyph.contours, List.flatMap_assoc]
    simp only [Figure.numberedPoints, hcontours, List.flatMap_map]
  rw [hmoved, lost, Glyph.numberedPoints, List.length_flatMap, List.length_flatMap,
    ← List.sum_map_add]
  refine List.sum_le_sum fun fc _ => ?_
  simpa using p.length_outlinePoints_le fc.1 fc.2

end Placed

-- ---------------------------------------------------------------------------
-- Leaves
-- ---------------------------------------------------------------------------

omit [Scalar α] in
theorem GlyphSource.Lists.inTree {source : GlyphSource α} {components : List (Component α)}
    {placed : List (Placed α)} {g : Glyph α} (h : source.Lists components placed)
    (hg : ∀ c ∈ components, c ∈ g.components) :
    ∀ p ∈ placed, ∃ level, source.InTree g level p.glyph := by
  induction h generalizing g with
  | nil => nofun
  | @cons c rest id child below after htarget hsource _ _ ihbelow ihafter =>
    obtain ⟨hc, hrest⟩ := List.forall_mem_cons.mp hg
    intro p hp
    rcases List.mem_append.mp hp with hp | hp
    · obtain ⟨q, hq, rfl⟩ := List.mem_map.mp hp
      rcases List.mem_cons.mp hq with rfl | hq
      · exact ⟨1, .component .root hc htarget hsource⟩
      · obtain ⟨level, hin⟩ := ihbelow (fun _ hc' => hc') q hq
        exact ⟨level + 1, hin.of_component hc htarget hsource⟩
    · exact ihafter hrest p hp

namespace Record

/-- The number of points in the record that an encoder returns. There is none if it refuses. -/
def recordPoints : Except (EncodeError α) (List UInt8) → ℕ
  | .ok bytes => (decode bytes : Decoded Error α).glyph.numberedPoints.length
  | .error _ => 0

/-- The points in the records of the leaves below some components. A leaf counts once for every path
that leads to it. -/
inductive Encoder.LeafPoints (e : Encoder α) (source : GlyphSource α) :
    List (Component α) → ℕ → Prop
  | nil : LeafPoints e source [] 0
  | leaf {c : Component α} {rest : List (Component α)} {id : GlyphId} {leaf : Glyph α} {n : ℕ} :
    c.target = .glyph id → source id = some leaf → leaf.components = [] →
    LeafPoints e source rest n →
    LeafPoints e source (c :: rest) (recordPoints (e.encode id leaf source).1 + n)
  | composite {c : Component α} {rest : List (Component α)} {id : GlyphId} {child : Glyph α}
    {m n : ℕ} :
    c.target = .glyph id → source id = some child → child.components ≠ [] →
    LeafPoints e source child.components m → LeafPoints e source rest n →
    LeafPoints e source (c :: rest) (m + n)

variable {e : Encoder α} {source : GlyphSource α} {components : List (Component α)}
  {placed : List (Placed α)} {m n : ℕ}

namespace Encoder

theorem LeafPoints.unique (hm : e.LeafPoints source components m)
    (hn : e.LeafPoints source components n) : m = n := by
  induction hm generalizing n with
  | nil =>
    cases hn
    rfl
  | leaf htarget hsource hleaf _ ih =>
    cases hn with
    | leaf htarget' hsource' _ hrest =>
      cases htarget.symm.trans htarget'
      cases hsource.symm.trans hsource'
      rw [ih hrest]
    | composite htarget' hsource' hne =>
      cases htarget.symm.trans htarget'
      cases hsource.symm.trans hsource'
      exact absurd hleaf hne
  | composite htarget hsource hne _ _ ihbelow ihrest =>
    cases hn with
    | leaf htarget' hsource' hleaf =>
      cases htarget.symm.trans htarget'
      cases hsource.symm.trans hsource'
      exact absurd hleaf hne
    | composite htarget' hsource' _ hbelow hrest =>
      cases htarget.symm.trans htarget'
      cases hsource.symm.trans hsource'
      rw [ihbelow hbelow, ihrest hrest]

theorem exists_leafPoints (e : Encoder α) (h : source.Lists components placed) :
    ∃ n, e.LeafPoints source components n := by
  induction h with
  | nil => exact ⟨0, .nil⟩
  | @cons c rest id child below after htarget hsource _ _ ihbelow ihafter =>
    obtain ⟨m, hm⟩ := ihbelow
    obtain ⟨n, hn⟩ := ihafter
    by_cases hleaf : child.components = []
    · exact ⟨_, .leaf htarget hsource hleaf hn⟩
    · exact ⟨_, .composite htarget hsource hleaf hm hn⟩

theorem recordPoints_le [LawfulScalar α] {g : Glyph α} (hleaf : g.components = [])
    (hcurves : g.hasCurves .cubic = false) (e : Encoder α) (id : GlyphId)
    (source : GlyphSource α) :
    recordPoints (e.encode id g source).1 ≤ g.numberedPoints.length := by
  rw [encode_simple hleaf hcurves]
  rcases hrecord : SimpleRecord.ofGlyph g with error | _ | r
  · exact Nat.zero_le _
  · exact Nat.zero_le _
  · show (decode r.toBytes : Decoded Error α).glyph.numberedPoints.length ≤ _
    rw [(isReadBack_toBytes hrecord).numberedPoints, g.numberedPoints_eq, List.length_map,
      List.length_map]

theorem LeafPoints.le_sum [LawfulScalar α] (hplaced : source.Lists components placed)
    (hcurves : ∀ p ∈ placed, p.glyph.hasCurves .cubic = false)
    (h : e.LeafPoints source components n) :
    n ≤ (placed.map (·.glyph.numberedPoints.length)).sum := by
  induction hplaced generalizing n with
  | nil =>
    cases h
    exact le_rfl
  | @cons c rest id child below after htarget hsource _ _ ihbelow ihafter =>
    simp only [List.map_cons, List.forall_mem_append, List.forall_mem_cons,
      List.forall_mem_map] at hcurves
    obtain ⟨⟨hchild, hbelow⟩, hafter⟩ := hcurves
    have hglyph : ∀ p : Placed α, (p.below c.transform).glyph = p.glyph := fun _ => rfl
    simp only [List.map_cons, List.map_append, List.sum_cons, List.sum_append, List.map_map,
      Function.comp_def, hglyph] at hbelow ⊢
    cases h with
    | leaf htarget' hsource' hleaf hrest =>
      cases htarget.symm.trans htarget'
      cases hsource.symm.trans hsource'
      have hown := recordPoints_le hleaf hchild e id source
      have hrest := ihafter hafter hrest
      omega
    | composite htarget' hsource' _ hm hrest =>
      cases htarget.symm.trans htarget'
      cases hsource.symm.trans hsource'
      have hm := ihbelow hbelow hm
      have hrest := ihafter hafter hrest
      omega

end Encoder

-- ---------------------------------------------------------------------------
-- The flattened glyph
-- ---------------------------------------------------------------------------

variable {id : GlyphId} {g flat : Glyph α}

theorem hasCurves_flatten {order : CurveOrder} (hplaced : source.Lists g.components placed)
    (hflat : flat.figures = g.figures ++ (placed.flatMap Placed.figures).filter (!·.isEmpty))
    (hcurves : ∀ level h, source.InTree g level h → h.hasCurves order = false) :
    flat.hasCurves order = false := by
  have hmove (p : Placed α) (f : Figure α) : (p.move f).hasCurves order = f.hasCurves order :=
    p.move_induction (·.hasCurves order) (fun _ _ => rfl) f
  have hfigures {h : Glyph α} (hh : h.hasCurves order = false) :
      ∀ f ∈ h.figures, f.hasCurves order = false := by
    simpa [Glyph.hasCurves] using hh
  rw [Glyph.hasCurves, hflat, List.any_eq_false]
  intro f hf
  rw [Bool.not_eq_true]
  rcases List.mem_append.mp hf with hf | hf
  · exact hfigures (hcurves 0 g .root) f hf
  · obtain ⟨p, hp, hf⟩ := List.mem_flatMap.mp (List.mem_of_mem_filter hf)
    rw [Placed.figures_eq_map] at hf
    obtain ⟨f', hf', rfl⟩ := List.mem_map.mp hf
    obtain ⟨level, hin⟩ := hplaced.inTree (fun _ hc => hc) p hp
    exact (hmove p f').trans (hfigures (hcurves level p.glyph hin) f' hf')

theorem sum_le_flatten
    (hflat : flat.figures = g.figures ++ (placed.flatMap Placed.figures).filter (!·.isEmpty)) :
    (placed.map (·.glyph.numberedPoints.length)).sum ≤
      flat.numberedPoints.length + (placed.map Placed.lost).sum := by
  have hpoints : flat.numberedPoints = g.numberedPoints ++
      placed.flatMap fun p => p.figures.flatMap Figure.numberedPoints := by
    rw [flat.numberedPoints_eq_flatMap, g.numberedPoints_eq_flatMap, hflat, List.flatMap_append,
      Glyph.flatMap_filter_isEmpty, List.flatMap_assoc]
  have hsum : (placed.map (·.glyph.numberedPoints.length)).sum ≤
      (placed.map fun p => (p.figures.flatMap Figure.numberedPoints).length + p.lost).sum :=
    List.sum_le_sum fun p _ => p.length_numberedPoints_le
  rw [List.sum_map_add] at hsum
  rw [hpoints, List.length_append, List.length_flatMap]
  omega

/-- A composite record that is written counts for the points of its leaves that are not lost. -/
theorem saturate_le_compositePoints [LawfulScalar α] {bytes : List UInt8}
    (hne : g.components ≠ []) (hmixed : g.isMixed = false)
    (hcurves : ∀ level h, source.InTree g level h → h.hasCurves .cubic = false)
    (h : (e.encode id g source).1 = .ok bytes) :
    ∃ placed n, source.Lists g.components placed ∧ e.LeafPoints source g.components n ∧
      Maxima.saturate (n - (placed.map Placed.lost).sum) ≤
        (e.encode id g source).2.maxima.compositePoints := by
  have hcontours : g.hasContours = false := by
    rw [Glyph.isMixed, List.isEmpty_eq_false_iff.mpr hne] at hmixed
    simpa using hmixed
  obtain ⟨_, _, _, -, -, -, -, rfl⟩ := encode_composite hcontours hne h
  obtain ⟨s, hs, hmaxima⟩ | ⟨hnone, -⟩ := encode_statistics e ⟨id, g, source⟩
  · cases hs with
    | simple hkind =>
      rcases hkind with hnil | hmixed'
      · exact absurd hnil hne
      · rw [hmixed] at hmixed'
        cases hmixed'
    | @composite _ flat depth _ _ _ _ hflat _ =>
      obtain ⟨placed, hplaced, heq⟩ := Glyph.flatten_ok hflat
      have hfigures := congrArg Glyph.figures heq
      have hcubic := hasCurves_flatten hplaced hfigures hcurves
      have hquadratic : quadratic flat e.accuracy = flat := by
        rw [quadratic, hcubic, if_neg Bool.false_ne_true]
      obtain ⟨n, hn⟩ := e.exists_leafPoints hplaced
      have hle := hn.le_sum hplaced fun p hp => by
        obtain ⟨level, hin⟩ := hplaced.inTree (fun _ hc => hc) p hp
        exact hcurves level p.glyph hin
      have hsum := sum_le_flatten hfigures
      refine ⟨placed, n, hplaced, hn, ?_⟩
      rw [hmaxima, hquadratic]
      refine le_trans ?_ (le_max_right _ _)
      exact min_le_min_right _ (by omega)
  · obtain ⟨s, hs⟩ := (exists_counts_iff e ⟨id, g, source⟩).mpr
      ⟨_, h, by simp [compositeBytes, headerBytes, BigEndian.encode_succ]⟩
    exact absurd hs (hnone s)

-- ---------------------------------------------------------------------------
-- Doubles
-- ---------------------------------------------------------------------------

/-- In doubles, once a composite without cubic curves below it is written, the statistics count at
least the points in the records of its leaves, each as often as a path leads to it, less those that
are lost where the leaves are placed: points that their record has but that come close to the middle
of two control points when they are scaled. None is lost if the points on the curve have numbers, as
they do after decoding. -/
theorem compositePoints_encode {e : Encoder Float} {id : GlyphId} {g : Glyph Float}
    {source : GlyphSource Float} {bytes : List UInt8} (hne : g.components ≠ [])
    (hmixed : g.isMixed = false)
    (hcurves : ∀ level h, source.InTree g level h → h.hasCurves .cubic = false)
    (h : (e.encode id g source).1 = .ok bytes) :
    ∃ placed n, source.Lists g.components placed ∧ e.LeafPoints source g.components n ∧
      (∀ k, e.LeafPoints source g.components k → k = n) ∧
      Maxima.saturate (n - (placed.map Placed.lost).sum) ≤
        (e.encode id g source).2.maxima.compositePoints ∧
      ((∀ p ∈ placed, ∀ outline ∈ p.glyph.outlines, ∀ q ∈ outline, q.onCurve = true →
          q.number.isSome = true) →
        Maxima.saturate n ≤ (e.encode id g source).2.maxima.compositePoints) := by
  obtain ⟨placed, n, hplaced, hn, hle⟩ := saturate_le_compositePoints hne hmixed hcurves h
  refine ⟨placed, n, hplaced, hn, fun _ hk => hk.unique hn, hle, fun hnumbers => ?_⟩
  have hlost : (placed.map Placed.lost).sum = 0 := by
    refine List.sum_eq_zero fun k hk => ?_
    obtain ⟨p, hp, rfl⟩ := List.mem_map.mp hk
    exact p.lost_eq_zero (hnumbers p hp)
  rwa [hlost, Nat.sub_zero] at hle

/-- Two curves that meet next to the middle of their control points. -/
def bulge : Glyph Float :=
  let b : Builder Float := ({ order := .quadratic } : Builder Float).moveTo ⟨0, 0⟩
  { Glyph.empty .truetype with
    figures := [((b.quadTo ⟨100, 0⟩ ⟨100, 101⟩).quadTo ⟨100, 200⟩ ⟨0, 200⟩).close.finish] }

def numberedBulge : Glyph Float :=
  (decode [0, 1, 0, 0, 0, 0, 0, 0x64, 0, 0xc8, 0, 4, 0, 0, 0x31, 0x32, 0x35, 0x34, 0x23, 0x64, 0x64,
    0x65, 0x63, 0]).glyph

/-- A component that is scaled so much that the curves meet in the middle. -/
def shrunk : Glyph Float :=
  { Glyph.empty .truetype with
    components := [{ target := .glyph 1, transform := ⟨1 / 8192, 0, 0, 1 / 8192, 0, 0⟩ }] }

def shrinking (leaf : Glyph Float) : GlyphSource Float := fun id => if id = 1 then leaf else none

theorem inTree_shrunk {leaf h : Glyph Float} {level : ℕ} (hleaf : leaf.components = [])
    (hin : (shrinking leaf).InTree shrunk level h) : h = shrunk ∨ h = leaf := by
  cases level with
  | zero =>
    cases hin
    exact .inl rfl
  | succ level =>
    obtain ⟨c, hc, id, child, htarget, hsource, hin⟩ := hin.exists_component
    obtain rfl := List.mem_singleton.mp hc
    cases htarget
    obtain rfl : leaf = child := Option.some.inj hsource
    rw [hin.eq_zero hleaf] at hin
    cases hin
    exact .inr rfl

theorem plain_shrunk {leaf : Glyph Float} (hleaf : leaf.components = [])
    (hcurves : leaf.hasCurves .cubic = false) : ∀ level h, (shrinking leaf).InTree shrunk level h →
      h.hasCurves .cubic = false ∧ h.isMixed = false := by
  intro level h hin
  rcases inTree_shrunk hleaf hin with rfl | rfl
  · exact ⟨by decide +kernel, by decide +kernel⟩
  · exact ⟨hcurves, by rw [Glyph.isMixed, hleaf]; rfl⟩

/-- Points with numbers are all counted. -/
theorem compositePoints_encode_numberedBulge :
    ∃ n, (Encoder.new : Encoder Float).LeafPoints (shrinking numberedBulge) shrunk.components n ∧
      Maxima.saturate n ≤ ((Encoder.new : Encoder Float).encode 2 shrunk
        (shrinking numberedBulge)).2.maxima.compositePoints := by
  obtain ⟨bytes, h⟩ : ∃ bytes, ((Encoder.new : Encoder Float).encode 2 shrunk
      (shrinking numberedBulge)).1 = .ok bytes := exists_ok (by decide +kernel)
  have hleaf : numberedBulge.components = [] := List.isEmpty_iff.mp (by decide +kernel)
  have hnumbers : ∀ outline ∈ numberedBulge.outlines, ∀ q ∈ outline, q.onCurve = true →
      q.number.isSome = true := by
    decide +kernel
  obtain ⟨placed, n, hplaced, hn, -, -, hle⟩ := compositePoints_encode (by decide) (by decide +kernel)
    (fun level h hin => (plain_shrunk hleaf (by decide +kernel) level h hin).1) h
  refine ⟨n, hn, hle fun p hp => ?_⟩
  obtain ⟨level, hin⟩ := hplaced.inTree (fun _ hc => hc) p hp
  rcases inTree_shrunk hleaf hin with hglyph | hglyph
  · rw [hglyph]
    nofun
  · rw [hglyph]
    exact hnumbers

/-- Without numbers a composite may count for four points where its leaf has five in its record. -/
theorem compositePoints_undercount :
    shrunk.components ≠ [] ∧
      (∀ level h, (shrinking bulge).InTree shrunk level h →
        h.hasCurves .cubic = false ∧ h.isMixed = false) ∧
      (∃ bytes, ((Encoder.new : Encoder Float).encode 2 shrunk (shrinking bulge)).1 = .ok bytes) ∧
      (Encoder.new : Encoder Float).LeafPoints (shrinking bulge) shrunk.components 5 ∧
      ¬ Maxima.saturate 5 ≤ ((Encoder.new : Encoder Float).encode 2 shrunk
        (shrinking bulge)).2.maxima.compositePoints := by
  refine ⟨by decide, plain_shrunk rfl (by decide +kernel), exists_ok (by decide +kernel), ?_,
    by decide +kernel⟩
  have hpoints :
      recordPoints ((Encoder.new : Encoder Float).encode 1 bulge (shrinking bulge)).1 = 5 := by
    decide +kernel
  have hleaf : (Encoder.new : Encoder Float).LeafPoints (shrinking bulge) shrunk.components
      (recordPoints ((Encoder.new : Encoder Float).encode 1 bulge (shrinking bulge)).1 + 0) :=
    .leaf rfl rfl rfl .nil
  rwa [hpoints] at hleaf

end Record

end Letterform
