import Letterform.Proofs.Charstring.Blending
import Letterform.Proofs.Charstring.RegionScalar
import Letterform.Proofs.Charstring.VariationInUse

/-!
# Blending at the default location

At the default location a region vanishes if one of its axes limits it. A region without such an axis
counts there as it does everywhere. So a blend leaves the default values it was given, except that
the deltas for regions of the latter kind are added to them.
-/

namespace Letterform.Charstring

open Double (StandsFor Representable)

-- ---------------------------------------------------------------------------
-- Weights
-- ---------------------------------------------------------------------------

theorem representable_zero : Representable 0 := by
  have := Double.representable_intCast (n := 0) (by norm_num)
  rwa [Int.cast_zero] at this

theorem standsFor_zero : StandsFor (0 : Float) 0 := by
  have := Double.standsFor_ofInt (n := 0) (by norm_num)
  rwa [Int.cast_zero] at this

theorem standsFor_div_of_zero {x y : Float} {q : ℚ} (hx : StandsFor x 0) (hy : StandsFor y q)
    (hq : q ≠ 0) : StandsFor (x / y) 0 := by
  have := Double.standsFor_div hx hy hq (by rw [zero_div]; exact representable_zero)
  rwa [zero_div] at this

theorem standsFor_sub_of_zero {x y : Float} (hx : StandsFor x 0) (hy : StandsFor y 0) :
    StandsFor (x - y) 0 := by
  have := Double.standsFor_sub hx hy (by rw [sub_zero]; exact representable_zero)
  rwa [sub_zero] at this

theorem standsFor_mul_of_zero {x y : Float} {q : ℚ} (hx : StandsFor x q) (hy : StandsFor y 0) :
    StandsFor (x * y) 0 := by
  have := Double.standsFor_mul hx hy (by rw [mul_zero]; exact representable_zero)
  rwa [mul_zero] at this

theorem RegionAxis.factor?_at_default {r : RegionAxis Float} (hr : r.All fun x => x.isFinite = true)
    (heffective : r.isEffective = true) {coordinate : Float} (h : StandsFor coordinate 0) :
    ∀ w ∈ r.factor? coordinate, StandsFor w 0 := by
  have hpositions : r.All fun x => ∃ p, StandsFor x p :=
    hr.imp fun _ h => ⟨_, Double.standsFor_of_isFinite h⟩
  have hform := (isEffective_iff isReading_standsFor hpositions).mp heffective
  obtain ⟨⟨start, hstart⟩, ⟨peak, hpeak⟩, stop, hstop⟩ := hpositions
  have hne : peak ≠ 0 := fun heq => hform.peak_ne ((Double.beq_iff hpeak standsFor_zero).mpr heq)
  have hrising := (Double.le_iff hstart hpeak).mp hform.start_le
  have hfalling := (Double.le_iff hpeak hstop).mp hform.le_stop
  have hside : ¬ (start < 0 ∧ 0 < stop) := fun ⟨hlow, hhigh⟩ =>
    hform.oneSided ⟨(Double.lt_iff hstart standsFor_zero).mpr hlow,
      (Double.lt_iff standsFor_zero hstop).mpr hhigh⟩
  unfold factor?
  split_ifs with hneutral houtside hsame hbelow
  · rw [heffective] at hneutral
    cases hneutral
  · nofun
  · exact absurd ((Double.beq_iff h hpeak).mp hsame) hne.symm
  · rw [Double.lt_iff h hstart, Double.lt_iff hstop h, not_or, not_lt, not_lt] at houtside
    have hpositive := (Double.lt_iff h hpeak).mp hbelow
    obtain rfl : start = 0 := le_antisymm houtside.1 (not_lt.mp fun hlow =>
      hside ⟨hlow, hpositive.trans_le hfalling⟩)
    have hdivisor := Double.standsFor_sub hpeak hstart
      (by rw [sub_zero]; exact Double.representable_of_standsFor hpeak)
    rintro _ ⟨⟩
    exact standsFor_div_of_zero (standsFor_sub_of_zero h hstart) hdivisor (by rwa [sub_zero])
  · rw [Double.lt_iff h hstart, Double.lt_iff hstop h, not_or, not_lt, not_lt] at houtside
    have hnegative : peak < 0 :=
      lt_of_le_of_ne (not_lt.mp fun hlt => hbelow ((Double.lt_iff h hpeak).mpr hlt)) hne
    obtain rfl : stop = 0 := le_antisymm (not_lt.mp fun hhigh =>
      hside ⟨hrising.trans_lt hnegative, hhigh⟩) houtside.2
    have hdivisor := Double.standsFor_sub hstop hpeak
      (by rw [zero_sub]; exact Double.representable_neg (Double.representable_of_standsFor hpeak))
    rintro _ ⟨⟩
    exact standsFor_div_of_zero (standsFor_sub_of_zero hstop h) hdivisor
      (by rwa [zero_sub, neg_ne_zero])

namespace Region

def Vanishes (factor : Option Float) : Prop := ∀ w ∈ factor, StandsFor w 0

theorem product_at_default {factors : List (Option Float)}
    (h : ∀ f ∈ factors, f = some 1 ∨ Vanishes f) {a : Float} {q : ℚ} (ha : StandsFor a q)
    (hvanishes : q = 0 ∨ ∃ f ∈ factors, Vanishes f) : StandsFor (product a factors) 0 := by
  induction factors generalizing a q with
  | nil => exact hvanishes.resolve_right (by simp) ▸ ha
  | cons f factors ih =>
    obtain ⟨hf, hfactors⟩ := List.forall_mem_cons.mp h
    cases f with
    | none =>
      rw [product_cons_none]
      exact standsFor_zero
    | some w =>
      rw [product_cons_some]
      by_cases hzero : StandsFor w 0
      · exact ih hfactors (standsFor_mul_of_zero ha hzero) (.inl rfl)
      · have hremains : ¬ Vanishes (some w) := fun h => hzero (h w rfl)
        obtain rfl : w = 1 := Option.some.inj (hf.resolve_right hremains)
        have hone : a * 1 = a := isReading_standsFor.mul_one a
        rw [hone]
        refine ih hfactors ha (hvanishes.imp_right ?_)
        rintro ⟨f, _ | ⟨_, hmem⟩, hf⟩
        · exact absurd hf hremains
        · exact ⟨f, hmem, hf⟩

def isUnlimited {α : Type} [Scalar α] (region : Region α) : Bool :=
  region.all fun r => !r.isEffective

theorem scalar_of_isUnlimited {region : Region Float} (h : region.isUnlimited = true)
    (location : List ℤ) : region.scalar location = 1 := by
  rw [scalar_eq_product isReading_standsFor.mul_one region location le_rfl]
  refine product_of_forall isReading_standsFor.mul_one (fun f hf => ?_) 1
  obtain ⟨i, -, rfl⟩ := List.mem_map.mp hf
  cases haxis : region[i]? with
  | none => simp [factorAt?, haxis]
  | some axis =>
    have hneutral := List.all_eq_true.mp h axis (List.mem_of_getElem? haxis)
    rw [Bool.not_eq_true'] at hneutral
    rw [factorAt?, haxis]
    exact RegionAxis.factor?_of_not_isEffective (by simp [hneutral]) _

theorem standsFor_coordinateAt_default {location : List ℤ} (h : ∀ word ∈ location, word = 0) (i : ℕ) :
    StandsFor (coordinateAt location i) 0 := by
  have hword : location.getD i 0 = 0 := by
    rw [List.getD_eq_getElem?_getD]
    cases hi : location[i]? with
    | none => rfl
    | some word => exact h word (List.mem_of_getElem? hi)
  have hzero := Scalar.isTwoDotFourteen_ofTwoDotFourteen (α := Float) (n := 0) (by norm_num)
  rw [Scalar.IsTwoDotFourteen, Int.cast_zero, zero_div] at hzero
  rw [coordinateAt, hword]
  exact hzero

theorem standsFor_scalar_at_default {region : Region Float}
    (hregion : ∀ axis ∈ region, axis.All fun x => x.isFinite = true)
    (h : region.isUnlimited = false) {location : List ℤ} (hlocation : ∀ word ∈ location, word = 0) :
    StandsFor (region.scalar location) 0 := by
  rw [scalar_eq_product isReading_standsFor.mul_one region location le_rfl]
  have hfactor {i : ℕ} {axis : RegionAxis Float} (haxis : region[i]? = some axis)
      (heffective : axis.isEffective = true) : Vanishes (region.factorAt? location i) := by
    rw [factorAt?, haxis]
    exact RegionAxis.factor?_at_default (hregion axis (List.mem_of_getElem? haxis)) heffective
      (standsFor_coordinateAt_default hlocation i)
  refine product_at_default (fun f hf => ?_) (Double.standsFor_ofInt (n := 1) (by norm_num)) (.inr ?_)
  · obtain ⟨i, -, rfl⟩ := List.mem_map.mp hf
    cases haxis : region[i]? with
    | none =>
      left
      rw [factorAt?, haxis]
      rfl
    | some axis =>
      by_cases heffective : axis.isEffective = true
      · exact .inr (hfactor haxis heffective)
      · left
        rw [factorAt?, haxis]
        exact RegionAxis.factor?_of_not_isEffective heffective _
  · obtain ⟨axis, hmem, heffective⟩ : ∃ axis ∈ region, axis.isEffective = true := by
      simpa [isUnlimited] using h
    obtain ⟨i, haxis⟩ := List.mem_iff_getElem?.mp hmem
    obtain ⟨hi, -⟩ := List.getElem?_eq_some_iff.mp haxis
    exact ⟨_, List.mem_map_of_mem (List.mem_range.mpr hi), hfactor haxis heffective⟩

end Region

-- ---------------------------------------------------------------------------
-- Variation data
-- ---------------------------------------------------------------------------

namespace VariationStore

section

variable {α : Type} [Scalar α]

/-- The scalar of a region of the font; one that the font lacks counts with zero. -/
def scalarAt (store : VariationStore α) (location : List ℤ) (i : ℕ) : α :=
  match store.regions[i]? with
  | some region => region.scalar location
  | none => 0

theorem scalars?_eq (store : VariationStore α) (location : List ℤ) (index : ℕ) :
    store.scalars? location index =
      store.data[index]?.map fun regions => regions.map (store.scalarAt location) := rfl

def isUnlimited (store : VariationStore α) (i : ℕ) : Bool :=
  (store.regions[i]?).any Region.isUnlimited

def standing (store : VariationStore α) (regions : List ℕ) (deltas : List α) : List α :=
  ((deltas.zip regions).filter fun p => store.isUnlimited p.2).map Prod.fst

theorem standing_eq_nil {store : VariationStore α} {regions : List ℕ}
    (h : ∀ i ∈ regions, store.isUnlimited i = false) (deltas : List α) :
    store.standing regions deltas = [] := by
  rw [standing, List.filter_eq_nil_iff.mpr, List.map_nil]
  intro p hp
  rw [h p.2 (List.of_mem_zip hp).2]
  exact Bool.false_ne_true

end

variable {store : VariationStore Float} {location : List ℤ} {i : ℕ}

def IsFinite (store : VariationStore Float) : Prop :=
  ∀ region ∈ store.regions, ∀ axis ∈ region, axis.All fun x => x.isFinite = true

theorem scalarAt_of_isUnlimited (h : store.isUnlimited i = true) (location : List ℤ) :
    store.scalarAt location i = 1 := by
  unfold isUnlimited at h
  unfold scalarAt
  cases hregion : store.regions[i]? with
  | none =>
    rw [hregion] at h
    cases h
  | some region =>
    rw [hregion] at h
    exact Region.scalar_of_isUnlimited h location

theorem standsFor_scalarAt_default (hfinite : store.IsFinite) (hlocation : ∀ word ∈ location, word = 0)
    (h : store.isUnlimited i = false) : StandsFor (store.scalarAt location i) 0 := by
  unfold isUnlimited at h
  unfold scalarAt
  cases hregion : store.regions[i]? with
  | none => exact standsFor_zero
  | some region =>
    rw [hregion] at h
    exact Region.standsFor_scalar_at_default (hfinite region (List.mem_of_getElem? hregion)) h hlocation

theorem scalarAt_beq_zero (hfinite : store.IsFinite) (hlocation : ∀ word ∈ location, word = 0) (i : ℕ) :
    (store.scalarAt location i == 0) = !store.isUnlimited i := by
  cases h : store.isUnlimited i with
  | false =>
    have hzero := standsFor_scalarAt_default hfinite hlocation h
    exact (Double.beq_iff hzero standsFor_zero).mpr rfl
  | true =>
    rw [scalarAt_of_isUnlimited h]
    decide +kernel

theorem contributions_at_default (hfinite : store.IsFinite) (hlocation : ∀ word ∈ location, word = 0)
    (regions : List ℕ) (deltas : List Float) :
    Stack.contributions (regions.map (store.scalarAt location)) deltas =
      store.standing regions deltas := by
  rw [Stack.contributions, standing, List.zip_map_right, List.filter_map, List.map_map]
  rw [List.filter_congr (q := fun p => store.isUnlimited p.2) fun p _ => ?_]
  swap
  · show (!(store.scalarAt location p.2 == 0)) = _
    rw [scalarAt_beq_zero hfinite hlocation, Bool.not_not]
  refine List.map_congr_left fun p hp => ?_
  show p.1 * store.scalarAt location p.2 = p.1
  rw [scalarAt_of_isUnlimited (List.mem_filter.mp hp).2]
  exact isReading_standsFor.mul_one p.1

end VariationStore

-- ---------------------------------------------------------------------------
-- Evaluation
-- ---------------------------------------------------------------------------

section

variable {α : Type} [Scalar α] {ctx : Context α}

theorem Machine.blend_of_scalars {m : Machine α} {scalars : List α} (h : m.scalars = some scalars) :
    m.blend ctx = do return m.withStack (← m.attempt (m.stack.blend scalars)) := by
  obtain ⟨calculator, builder, glyph, diagnostics, position, widthTaken, declared, pendingMask,
    replacingHints, _, origin, flex, results⟩ := m
  obtain rfl := h
  rfl

/-- Blending takes the scalars of some variation data: those in use, or at first those of the variation
data that the font names. -/
theorem Machine.exists_blend_eq {store : VariationStore α} (hstore : ctx.store = some store)
    (hindex : ctx.privateDict.variationStoreIndex < store.data.length) {m : Machine α}
    (h : m.UsesVariations ctx) :
    ∃ (index : ℕ) (regions : List ℕ) (m' : Machine α), store.data[index]? = some regions ∧
      (∀ scalars, m.scalars = some scalars → store.scalars? ctx.location index = some scalars) ∧
      (m.scalars = none → index = ctx.privateDict.variationStoreIndex) ∧ m.blend ctx = do
        return m'.withStack
          (← m'.attempt (m.stack.blend (regions.map (store.scalarAt ctx.location)))) := by
  cases hused : m.scalars with
  | some scalars =>
    obtain ⟨store', index, hstore', hscalars⟩ := h scalars hused
    obtain rfl : store = store' := Option.some.inj (hstore.symm.trans hstore')
    obtain ⟨regions, hdata, rfl⟩ := Option.map_eq_some_iff.mp hscalars
    refine ⟨index, regions, m, hdata, ?_, nofun, blend_of_scalars hused⟩
    rintro _ ⟨⟩
    exact hscalars
  | none =>
    obtain ⟨regions, hdata⟩ : ∃ regions, store.data[ctx.privateDict.variationStoreIndex]? =
        some regions := ⟨_, List.getElem?_eq_getElem hindex⟩
    have hscalars : store.scalars? ctx.location ctx.privateDict.variationStoreIndex =
        some (regions.map (store.scalarAt ctx.location)) := by
      rw [VariationStore.scalars?_eq, hdata]
      rfl
    have hchosen : m.chooseVariation ctx store ctx.privateDict.variationStoreIndex =
        .ok { m with scalars := some (regions.map (store.scalarAt ctx.location)) } := by
      rw [chooseVariation, hscalars]
    refine ⟨_, regions, { m with scalars := some (regions.map (store.scalarAt ctx.location)) }, hdata,
      nofun, fun _ => rfl, ?_⟩
    unfold blend
    simp only [hused, hstore, hchosen]
    rfl

def Configuration.IsAtBlend (ctx : Context α) (c : Configuration α) : Prop :=
  ∃ b code rest outer, c.frames = (b :: code) :: outer ∧
    Token.read (α := α) ctx.version b code = .ok (.operator .blend, rest) ∧
    Operator.blend.isKnownTo ctx.version = true

theorem Configuration.IsAtBlend.next {c : Configuration α} (h : c.IsAtBlend ctx) :
    ∃ frames, c.next ctx = some ((c.machine.blend ctx).map fun m => ⟨frames, m⟩) :=
  (show c.IsAt ctx .blend from h).next rfl

end

/-- At the default location, where the coordinates are missing or zero, the scalars of a set of variation
data are all zero if and only if each of its regions is limited by an axis or missing. Whatever the
charstring, a blend on the way fails for a lack of operands only. Otherwise it leaves the default
values, and added to them the deltas for those regions of the variation data in use that no axis
limits. -/
theorem blend_at_default (ctx : Context Float) {store : VariationStore Float}
    (hstore : ctx.store = some store)
    (hindex : ctx.privateDict.variationStoreIndex < store.data.length) (hfinite : store.IsFinite)
    (hlocation : ∀ word ∈ ctx.location, word = 0) :
    (∀ index regions, store.data[index]? = some regions →
      ∃ scalars, store.scalars? ctx.location index = some scalars ∧
        ((∀ scalar ∈ scalars, (scalar == 0) = true) ↔
          ∀ i ∈ regions, store.isUnlimited i = false)) ∧
    ∀ (code : List UInt8) (c : Configuration Float), (Configuration.start ctx code).Reaches ctx c →
      c.IsAtBlend ctx → ∃ index regions, store.data[index]? = some regions ∧
        (∀ scalars, c.machine.scalars = some scalars →
          store.scalars? ctx.location index = some scalars) ∧
        (c.machine.scalars = none → index = ctx.privateDict.variationStoreIndex) ∧
        ((c.machine.stack.LacksOperands regions.length ∧
            ∃ halt, c.next ctx = some (.error halt) ∧ halt.error = .stackUnderflow) ∨
          ∃ (below values : List Float) (groups : List (List Float)) (count : Float)
            (c' : Configuration Float),
            c.machine.operands = below ++ values ++ groups.flatten ++ [count] ∧
            Scalar.toInt32 count = values.length ∧ groups.length = values.length ∧
            (∀ deltas ∈ groups, deltas.length = regions.length) ∧ c.next ctx = some (.ok c') ∧
            c'.machine.operands = below ++ List.zipWith
              (fun value deltas => (store.standing regions deltas).foldl (· + ·) value)
              values groups ∧
            ((∀ i ∈ regions, store.isUnlimited i = false) →
              c'.machine.operands = below ++ values)) := by
  refine ⟨fun index regions hdata => ?_, fun code c hreaches hblend => ?_⟩
  · refine ⟨regions.map (store.scalarAt ctx.location), ?_, ?_⟩
    · rw [VariationStore.scalars?_eq, hdata]
      rfl
    · rw [List.forall_mem_map]
      refine forall₂_congr fun i _ => ?_
      rw [VariationStore.scalarAt_beq_zero hfinite hlocation, Bool.not_eq_true']
  · obtain ⟨index, regions, m', hdata, hused, hfirst, heq⟩ :=
      Machine.exists_blend_eq hstore hindex hreaches.usesVariations
    obtain ⟨frames, hnext⟩ := hblend.next
    refine ⟨index, regions, hdata, hused, hfirst, ?_⟩
    rw [heq] at hnext
    rcases c.machine.stack.blend_cases (regions.map (store.scalarAt ctx.location)) with
      ⟨hlack, herror⟩ | ⟨below, values, groups, count, hoperands, hcount, hgroups, hdeltas, hok⟩
    · rw [herror] at hnext
      rw [List.length_map] at hlack
      exact .inl ⟨hlack, _, hnext, rfl⟩
    · rw [hok] at hnext
      rw [List.length_map] at hdeltas
      have hleft : (List.zipWith (Stack.blended (regions.map (store.scalarAt ctx.location))) values
          groups) = List.zipWith
            (fun value deltas => (store.standing regions deltas).foldl (· + ·) value)
            values groups := by
        congr 1
        funext value deltas
        rw [Stack.blended_eq_foldl, VariationStore.contributions_at_default hfinite hlocation]
      refine .inr ⟨below, values, groups, count, _, hoperands, hcount, hgroups, hdeltas, hnext, ?_,
        fun hlimited => ?_⟩
      · rw [← hleft]
        exact Stack.operands_ofOperands _ _
      · refine (Stack.operands_ofOperands _ _).trans ?_
        rw [hleft]
        simp only [VariationStore.standing_eq_nil hlimited, List.foldl_nil]
        exact congrArg (below ++ ·) (List.ext_getElem (by simp [hgroups]) (by simp))

/-- A font of one region, with a set of variation data for it. -/
def oneRegion (region : Region Float) : Context Float :=
  { version := .cff2, store := some { regions := [region], data := [[0]] } }

/-- The bytes of 50 100 1 and a blend. -/
def blendCode : List UInt8 := [189, 239, 140, 16]

theorem exists_at_blend (region : Region Float) : ∃ m : Machine Float,
    (Configuration.start (oneRegion region) blendCode).Reaches (oneRegion region) ⟨[[16]], m⟩ ∧
      (⟨[[16]], m⟩ : Configuration Float).IsAtBlend (oneRegion region) ∧
      m.stack = Stack.ofOperands 513 [50, 100, 1] ∧ m.scalars = none := by
  refine ⟨_, .tail (.tail (.single rfl) rfl) rfl, ⟨16, [], [], [], rfl, rfl, rfl⟩, ?_, rfl⟩
  show Stack.mk [Scalar.ofInt 1, Scalar.ofInt 100, Scalar.ofInt 50] 513 = _
  decide +kernel

/-- With an axis that limits the region the default value is left. -/
theorem blend_at_default_limited :
    let ctx := oneRegion [⟨-1, -1, 0⟩]
    ctx.location = [] ∧ ∃ c c' : Configuration Float,
      (Configuration.start ctx blendCode).Reaches ctx c ∧ c.IsAtBlend ctx ∧
        c.machine.operands = [50, 100, 1] ∧ c.next ctx = some (.ok c') ∧
        c'.machine.operands = [50] := by
  intro ctx
  obtain ⟨m, hreaches, hblend, hstack, hscalars⟩ := exists_at_blend [⟨-1, -1, 0⟩]
  have hfinite : VariationStore.IsFinite { regions := [[⟨-1, -1, 0⟩]], data := [[0]] } := by
    intro region hregion axis haxis
    obtain rfl := List.mem_singleton.mp hregion
    obtain rfl := List.mem_singleton.mp haxis
    refine ⟨?_, ?_, ?_⟩ <;> decide +kernel
  obtain ⟨index, regions, hdata, -, hfirst, hends⟩ :=
    (blend_at_default ctx rfl (by decide) hfinite nofun).2 blendCode _ hreaches hblend
  obtain rfl := hfirst hscalars
  obtain rfl : [0] = regions := Option.some.inj hdata
  rcases hends with ⟨hnone | ⟨operands, count, hoperands, hlack⟩, -⟩ |
    ⟨below, values, groups, count, c', hoperands, hcount, hgroups, hdeltas, hnext, -, hkept⟩
  · rw [hstack, Stack.operands_ofOperands] at hnone
    cases hnone
  · rw [hstack, Stack.operands_ofOperands] at hoperands
    obtain ⟨rfl, hcount⟩ :=
      List.append_inj' (show [50, 100] ++ [1] = operands ++ [count] from hoperands) rfl
    obtain rfl := List.singleton_inj.mp hcount
    exact absurd hlack (by decide +kernel)
  · rw [Machine.operands, hstack, Stack.operands_ofOperands] at hoperands
    obtain ⟨hparts, hlast⟩ := List.append_inj'
      (show [50, 100] ++ [1] = below ++ values ++ groups.flatten ++ [count] from hoperands) rfl
    obtain rfl := List.singleton_inj.mp hlast
    have hone : values.length = 1 := by
      rw [show Scalar.toInt32 (1 : Float) = 1 by decide +kernel] at hcount
      exact_mod_cast hcount.symm
    obtain ⟨value, rfl⟩ := List.length_eq_one_iff.mp hone
    obtain ⟨deltas, rfl⟩ := List.length_eq_one_iff.mp hgroups
    obtain ⟨delta, rfl⟩ := List.length_eq_one_iff.mp (hdeltas deltas List.mem_cons_self)
    obtain rfl : below = [] := by
      have hlength := congrArg List.length hparts
      exact List.eq_nil_of_length_eq_zero (by simpa using hlength)
    obtain ⟨rfl, -⟩ := List.cons.inj hparts
    refine ⟨rfl, _, c', hreaches, hblend, ?_, hnext, hkept ?_⟩
    · rw [Machine.operands, hstack, Stack.operands_ofOperands]
    · intro i hi
      obtain rfl := List.mem_singleton.mp hi
      decide +kernel

/-- A region without axes counts even with no coordinates, and its delta is added. -/
theorem blend_at_default_unlimited :
    let ctx := oneRegion []
    ctx.location = [] ∧ (ctx.store.bind (·.scalars? [] 0)) = some [1] ∧
      ∃ c c' : Configuration Float, (Configuration.start ctx blendCode).Reaches ctx c ∧
        c.IsAtBlend ctx ∧ c.machine.operands = [50, 100, 1] ∧ c.next ctx = some (.ok c') ∧
        c'.machine.operands = [150] := by
  intro ctx
  obtain ⟨m, hreaches, hblend, hstack, hscalars⟩ := exists_at_blend []
  obtain ⟨index, regions, m', hdata, -, hfirst, heq⟩ :=
    Machine.exists_blend_eq (show ctx.store = some _ from rfl) (by decide) hreaches.usesVariations
  obtain rfl := hfirst hscalars
  obtain rfl : [0] = regions := Option.some.inj hdata
  obtain ⟨frames, hnext⟩ := hblend.next
  have hparts : (Stack.ofOperands 513 ([] ++ [50] ++ [[100]].flatten ++ [1])).blend [(1 : Float)] =
      .ok (Stack.ofOperands 513 ([] ++ List.zipWith (Stack.blended [1]) [50] [[100]])) :=
    Stack.blend_ofOperands 513 (by decide +kernel) rfl (by simp)
  have hsum : (Stack.ofOperands 513 [50, 100, 1]).blend [(1 : Float)] = .ok _ := hparts
  have hscalar : VariationStore.scalarAt { regions := [[]], data := [[0]] } ctx.location 0 =
      (1 : Float) := by decide +kernel
  rw [hstack, List.map_singleton, hscalar, hsum] at heq
  rw [heq] at hnext
  refine ⟨rfl, by decide +kernel, _, _, hreaches, hblend, ?_, hnext, ?_⟩
  · rw [Machine.operands, hstack, Stack.operands_ofOperands]
  · refine (Stack.operands_ofOperands 513 _).trans ?_
    decide +kernel

end Letterform.Charstring
