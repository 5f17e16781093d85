import Letterform.Charstring.Variation
import Letterform.Proofs.Number.Exact
import Letterform.Proofs.Number.Gridded
import Letterform.Proofs.Number.Single

/-!
# The scalar of a region

An axis whose positions are not in order leaves its region as it is. Every other axis weakens the
region the further the coordinate lies from the peak, and beyond its ends the region vanishes. The
scalar is the product of these weights, and none of them needs a quotient of which the divisor is
zero.
-/

namespace Letterform.Charstring

variable {α : Type} [Scalar α]

/-- The coordinate of a location on an axis; those that are missing are zero. -/
def coordinateAt (location : List ℤ) (i : ℕ) : α := Scalar.ofTwoDotFourteen (location.getD i 0)

/-- Scalars are read as members of an order if those that stand for one compare as these do, only
equal ones of them have a difference of zero, and a product with one is the other factor. -/
structure IsReading {R : Type} [LinearOrder R] (stands : α → R → Prop) : Prop where
  lt_iff {a b : α} {p q : R} : stands a p → stands b q → (a < b ↔ p < q)
  le_iff {a b : α} {p q : R} : stands a p → stands b q → (a ≤ b ↔ p ≤ q)
  beq_iff {a b : α} {p q : R} : stands a p → stands b q → ((a == b) = true ↔ p = q)
  of_sub {a b : α} : (a - b == 0) = true → ∃ q, stands a q ∧ stands b q
  mul_one (a : α) : a * 1 = a

-- ---------------------------------------------------------------------------
-- Division that can fail
-- ---------------------------------------------------------------------------

def divide? (a b : α) : Option α := if b == 0 then none else some (a / b)

theorem divide?_eq {a b : α} (h : (b == 0) = false) : divide? a b = some (a / b) := by
  rw [divide?, h]
  rfl

/-- What an axis contributes at a coordinate, found with divisions that can fail. -/
def RegionAxis.checkedFactor? (r : RegionAxis α) (coordinate : α) : Option (Option α) :=
  if !r.isEffective then some (some 1)
  else if coordinate < r.start ∨ r.stop < coordinate then some none
  else if coordinate == r.peak then some (some 1)
  else if coordinate < r.peak then
    (divide? (coordinate - r.start) (r.peak - r.start)).map some
  else (divide? (r.stop - coordinate) (r.stop - r.peak)).map some

/-- The scalar of a region, found with divisions that can fail. -/
def Region.checkedScalar? (region : Region α) (location : List ℤ) : Option α :=
  let factors : OptionT Option (List α) := region.zipIdx.mapM fun (axis, i) =>
    OptionT.mk (axis.checkedFactor? (Scalar.ofTwoDotFourteen (location.getD i 0)))
  factors.run.map fun
    | some factors => factors.foldl (· * ·) 1
    | none => 0

-- ---------------------------------------------------------------------------
-- Axes
-- ---------------------------------------------------------------------------

namespace RegionAxis

/-- The positions are in order, and the peak lies off the default on the same side as the others. -/
structure IsWellFormed (r : RegionAxis α) : Prop where
  start_le : r.start ≤ r.peak
  le_stop : r.peak ≤ r.stop
  peak_ne : ¬ (r.peak == 0) = true
  oneSided : ¬ (r.start < 0 ∧ 0 < r.stop)

/-- A coordinate lies strictly outside the extent of an axis. -/
def IsOutside (r : RegionAxis α) (coordinate : α) : Prop :=
  coordinate < r.start ∨ r.stop < coordinate

omit [Scalar α] in
def All (property : α → Prop) (r : RegionAxis α) : Prop :=
  property r.start ∧ property r.peak ∧ property r.stop

omit [Scalar α] in
theorem All.imp {property property' : α → Prop} (h : ∀ a, property a → property' a)
    {r : RegionAxis α} (hr : r.All property) : r.All property' :=
  ⟨h _ hr.1, h _ hr.2.1, h _ hr.2.2⟩

theorem factor?_of_not_isEffective {r : RegionAxis α} (h : ¬ r.isEffective = true) (coordinate : α) :
    r.factor? coordinate = some 1 := by
  simp [factor?, h]

theorem factor?_of_isOutside {r : RegionAxis α} (h : r.isEffective = true) {coordinate : α}
    (houtside : r.IsOutside coordinate) : r.factor? coordinate = none := by
  unfold IsOutside at houtside
  simp [factor?, h, houtside]

section

variable {R : Type} [LinearOrder R] {stands : α → R → Prop}

theorem isEffective_iff (h : IsReading stands) {r : RegionAxis α}
    (hr : r.All fun a => ∃ p, stands a p) : r.isEffective = true ↔ r.IsWellFormed := by
  obtain ⟨⟨start, hstart⟩, ⟨peak, hpeak⟩, stop, hstop⟩ := hr
  have hrising : ¬ r.peak < r.start ↔ r.start ≤ r.peak := by
    rw [h.lt_iff hpeak hstart, h.le_iff hstart hpeak, not_lt]
  have hfalling : ¬ r.stop < r.peak ↔ r.peak ≤ r.stop := by
    rw [h.lt_iff hstop hpeak, h.le_iff hpeak hstop, not_lt]
  simp only [isEffective, Bool.not_eq_true', Bool.or_eq_false_iff, decide_eq_false_iff_not,
    ← Bool.decide_and, hrising, hfalling]
  rw [← Bool.not_eq_true]
  exact ⟨fun ⟨⟨⟨hstart, hstop⟩, hpeak⟩, hside⟩ => ⟨hstart, hstop, hpeak, hside⟩,
    fun ⟨hstart, hstop, hpeak, hside⟩ => ⟨⟨⟨hstart, hstop⟩, hpeak⟩, hside⟩⟩

theorem factor?_peak (h : IsReading stands) {r : RegionAxis α}
    (hr : r.All fun a => ∃ p, stands a p) {coordinate : α} (hpeak : (coordinate == r.peak) = true)
    {p : R} (hp : stands coordinate p) : r.factor? coordinate = some 1 := by
  by_cases heffective : r.isEffective = true
  · have hform := (isEffective_iff h hr).mp heffective
    obtain ⟨⟨start, hstart⟩, ⟨q, hq⟩, stop, hstop⟩ := hr
    obtain rfl : p = q := (h.beq_iff hp hq).mp hpeak
    have hwithin : ¬ (coordinate < r.start ∨ r.stop < coordinate) := by
      rw [h.lt_iff hp hstart, h.lt_iff hstop hp, not_or, not_lt, not_lt, ← h.le_iff hstart hq,
        ← h.le_iff hq hstop]
      exact ⟨hform.start_le, hform.le_stop⟩
    simp [factor?, hwithin, hpeak]
  · exact factor?_of_not_isEffective heffective coordinate

/-- A divisor is the extent of the axis on one side of the peak, and the coordinate lies within that
extent off the peak. -/
theorem checkedFactor?_eq (h : IsReading stands) (r : RegionAxis α) {coordinate : α} {p : R}
    (hp : stands coordinate p) : r.checkedFactor? coordinate = some (r.factor? coordinate) := by
  unfold checkedFactor? factor?
  split_ifs with hneutral houtside hpeak hbelow
  · rfl
  · rfl
  · rfl
  · have hdivisor : (r.peak - r.start == 0) = false := by
      by_contra hzero
      obtain ⟨q, hq, hstart⟩ := h.of_sub (eq_true_of_ne_false hzero)
      exact houtside (.inl ((h.lt_iff hp hstart).mpr ((h.lt_iff hp hq).mp hbelow)))
    rw [divide?_eq hdivisor]
    rfl
  · have hdivisor : (r.stop - r.peak == 0) = false := by
      by_contra hzero
      obtain ⟨q, hstop, hq⟩ := h.of_sub (eq_true_of_ne_false hzero)
      rcases lt_trichotomy p q with hlt | heq | hgt
      · exact hbelow ((h.lt_iff hp hq).mpr hlt)
      · exact hpeak ((h.beq_iff hp hq).mpr heq)
      · exact houtside (.inr ((h.lt_iff hstop hp).mpr hgt))
    rw [divide?_eq hdivisor]
    rfl

end

end RegionAxis

-- ---------------------------------------------------------------------------
-- Regions
-- ---------------------------------------------------------------------------

namespace Region

/-- What the axis at a position contributes. A position without one has no influence. -/
def factorAt? (region : Region α) (location : List ℤ) (i : ℕ) : Option α :=
  (region[i]?).elim (some 1) (·.factor? (coordinateAt location i))

/-- A number times all factors, zero if one of them is missing. -/
def product (a : α) (factors : List (Option α)) : α :=
  match factors.mapM id with
  | some factors => factors.foldl (· * ·) a
  | none => 0

theorem product_nil (a : α) : product a [] = a := rfl

theorem product_cons_none (a : α) (factors : List (Option α)) : product a (none :: factors) = 0 := by
  rw [product, List.mapM_cons]
  rfl

theorem product_cons_some (a w : α) (factors : List (Option α)) :
    product a (some w :: factors) = product (a * w) factors := by
  rw [product, product, List.mapM_cons]
  show (match factors.mapM id >>= fun ws => pure (w :: ws) with
    | some factors => factors.foldl (· * ·) a
    | none => 0) = _
  cases factors.mapM id <;> rfl

theorem product_of_none {factors : List (Option α)} (h : none ∈ factors) (a : α) :
    product a factors = 0 := by
  induction factors generalizing a with
  | nil => cases h
  | cons f factors ih =>
    cases f with
    | none => exact product_cons_none a factors
    | some w =>
      rw [product_cons_some]
      exact ih ((List.mem_cons.mp h).resolve_left nofun) _

theorem product_of_forall (hone : ∀ a : α, a * 1 = a) {factors : List (Option α)}
    (h : ∀ f ∈ factors, f = some 1) (a : α) : product a factors = a := by
  induction factors with
  | nil => rfl
  | cons f factors ih =>
    obtain ⟨rfl, hfactors⟩ := List.forall_mem_cons.mp h
    rw [product_cons_some, hone, ih hfactors]

theorem product_append_one (hone : ∀ a : α, a * 1 = a) (a : α) (factors : List (Option α)) :
    product a (factors ++ [some 1]) = product a factors := by
  induction factors generalizing a with
  | nil => exact hone a
  | cons f factors ih =>
    cases f with
    | none => rw [List.cons_append, product_cons_none, product_cons_none]
    | some w => rw [List.cons_append, product_cons_some, product_cons_some, ih]

theorem scalar_eq_product (hone : ∀ a : α, a * 1 = a) (region : Region α) (location : List ℤ) {n : ℕ}
    (h : region.length ≤ n) :
    region.scalar location = product 1 ((List.range n).map (region.factorAt? location)) := by
  induction n, h using Nat.le_induction with
  | base =>
    have hpositions : (region.zipIdx.map fun (axis, i) =>
        axis.factor? (coordinateAt location i)) =
          (List.range region.length).map (region.factorAt? location) :=
      List.ext_getElem (by simp) fun i hi _ => by
        have hlt : i < region.length := by simpa using hi
        simp [factorAt?, hlt]
    rw [← hpositions, product, List.mapM_map]
    rfl
  | succ n h ih =>
    have hnone : region.factorAt? location n = some 1 := by
      rw [factorAt?, List.getElem?_eq_none h]
      rfl
    rw [ih, List.range_succ, List.map_append, List.map_singleton, hnone, product_append_one hone]

omit [Scalar α] in
theorem run_mapM_of_forall {β : Type} {f : β → Option (Option α)} {g : β → Option α} {l : List β}
    (h : ∀ b ∈ l, f b = some (g b)) :
    (l.mapM fun b => (OptionT.mk (f b) : OptionT Option α)).run = some (l.mapM g) := by
  induction l with
  | nil => rfl
  | cons b l ih =>
    obtain ⟨hb, hl⟩ := List.forall_mem_cons.mp h
    rw [List.mapM_cons, List.mapM_cons, OptionT.run_bind, OptionT.run_mk, hb]
    cases g b with
    | none => rfl
    | some a =>
      show ((l.mapM fun b => (OptionT.mk (f b) : OptionT Option α)) >>=
        fun as => pure (a :: as)).run = _
      rw [OptionT.run_bind, ih hl]
      cases l.mapM g <;> rfl

theorem checkedScalar?_eq {region : Region α} {location : List ℤ}
    (h : ∀ (axis : RegionAxis α) (i : ℕ), axis.checkedFactor? (coordinateAt location i) =
      some (axis.factor? (coordinateAt location i))) :
    region.checkedScalar? location = some (region.scalar location) := by
  unfold checkedScalar? scalar
  dsimp only
  rw [run_mapM_of_forall (g := fun (axis, i) =>
    axis.factor? (Scalar.ofTwoDotFourteen (location.getD i 0))) fun (axis, i) _ => h axis i]
  rfl

/-- What holds of the scalar of a region if positions with a property are numbers. -/
structure IsWeighed (property : α → Prop) (region : Region α) (location : List ℤ) : Prop where
  divides : region.checkedScalar? location = some (region.scalar location)
  peak : (∀ (i : ℕ) axis, region[i]? = some axis → (coordinateAt location i == axis.peak) = true) →
    region.scalar location = 1
  outside {i : ℕ} {axis : RegionAxis α} : region[i]? = some axis → axis.IsWellFormed →
    axis.IsOutside (coordinateAt location i) → region.scalar location = 0
  /-- Only the axes that are well formed and the coordinates on them have an influence. -/
  influence {region' : Region α} {location' : List ℤ} : (∀ axis ∈ region', axis.All property) →
    (∀ (i : ℕ) axis, axis.IsWellFormed →
      (region[i]? = some axis ↔ region'[i]? = some axis)) →
    (∀ (i : ℕ) axis, axis.IsWellFormed → region[i]? = some axis →
      (coordinateAt location i : α) = coordinateAt location' i) →
    region.scalar location = region'.scalar location'

section

variable {R : Type} [LinearOrder R] {stands : α → R → Prop} {property : α → Prop}

theorem factorAt?_of_not_exists (h : IsReading stands) (hproperty : ∀ a, property a → ∃ p, stands a p)
    {region : Region α} (hregion : ∀ axis ∈ region, axis.All property) {i : ℕ}
    (hnone : ∀ axis, axis.IsWellFormed → region[i]? ≠ some axis) (location : List ℤ) :
    region.factorAt? location i = some 1 := by
  cases haxis : region[i]? with
  | none => simp [factorAt?, haxis]
  | some axis =>
    have hpositions := (hregion axis (List.mem_of_getElem? haxis)).imp hproperty
    have hneutral : ¬ axis.isEffective = true := fun heffective =>
      hnone axis ((RegionAxis.isEffective_iff h hpositions).mp heffective) haxis
    simp [factorAt?, haxis, RegionAxis.factor?_of_not_isEffective hneutral]

theorem isWeighed (h : IsReading stands) (hproperty : ∀ a, property a → ∃ p, stands a p)
    {region : Region α} (hregion : ∀ axis ∈ region, axis.All property) {location : List ℤ}
    (hlocation : ∀ i, ∃ p, stands (coordinateAt location i) p) :
    region.IsWeighed property location where
  divides := checkedScalar?_eq fun axis i =>
    (hlocation i).elim fun _ hp => axis.checkedFactor?_eq h hp
  peak hpeak := by
    rw [scalar_eq_product h.mul_one region location le_rfl]
    refine product_of_forall h.mul_one (fun f hf => ?_) 1
    obtain ⟨i, -, rfl⟩ := List.mem_map.mp hf
    cases haxis : region[i]? with
    | none => simp [factorAt?, haxis]
    | some axis =>
      obtain ⟨p, hp⟩ := hlocation i
      rw [factorAt?, haxis]
      exact RegionAxis.factor?_peak h ((hregion axis (List.mem_of_getElem? haxis)).imp hproperty)
        (hpeak i axis haxis) hp
  outside {i axis} haxis hform houtside := by
    have hpositions := (hregion axis (List.mem_of_getElem? haxis)).imp hproperty
    have heffective := (RegionAxis.isEffective_iff h hpositions).mpr hform
    obtain ⟨hi, -⟩ := List.getElem?_eq_some_iff.mp haxis
    rw [scalar_eq_product h.mul_one region location le_rfl]
    refine product_of_none (List.mem_map.mpr ⟨i, List.mem_range.mpr hi, ?_⟩) 1
    rw [factorAt?, haxis]
    exact RegionAxis.factor?_of_isOutside heffective houtside
  influence {region' location'} hregion' hsame hcoordinates := by
    rw [scalar_eq_product h.mul_one region location (le_max_left _ region'.length),
      scalar_eq_product h.mul_one region' location' (le_max_right region.length _)]
    congr 1
    refine List.map_congr_left fun i _ => ?_
    by_cases hexists : ∃ axis : RegionAxis α, axis.IsWellFormed ∧ region[i]? = some axis
    · obtain ⟨axis, hform, haxis⟩ := hexists
      rw [factorAt?, factorAt?, haxis, (hsame i axis hform).mp haxis]
      simp only [Option.elim_some, hcoordinates i axis hform haxis]
    · have hnone (axis : RegionAxis α) (hform : axis.IsWellFormed) : region[i]? ≠ some axis :=
        fun haxis => hexists ⟨axis, hform, haxis⟩
      have hnone' (axis : RegionAxis α) (hform : axis.IsWellFormed) : region'[i]? ≠ some axis :=
        fun haxis => hnone axis hform ((hsame i axis hform).mpr haxis)
      rw [factorAt?_of_not_exists h hproperty hregion hnone,
        factorAt?_of_not_exists h hproperty hregion' hnone']

end

end Region

-- ---------------------------------------------------------------------------
-- Exact scalars
-- ---------------------------------------------------------------------------

section

open ExactScalar (value)

variable [ExactScalar α]

theorem isReading_value : IsReading fun (a : α) (x : ℝ) => value a = x where
  lt_iff := by
    rintro a b _ _ rfl rfl
    exact ExactScalar.lt_iff
  le_iff := by
    rintro a b _ _ rfl rfl
    exact ExactScalar.le_iff
  beq_iff := by
    rintro a b _ _ rfl rfl
    exact ExactScalar.beq_iff
  of_sub {a b} hzero := by
    have hdifference := ExactScalar.beq_iff.mp hzero
    simp only [ExactScalar.value_sub, ExactScalar.value_ofNat] at hdifference
    exact ⟨value b, by simpa [sub_eq_zero] using hdifference, rfl⟩
  mul_one a := ExactScalar.value_injective (by simp)

theorem value_div_mem_Icc {a b : α} (hdivisor : 0 < value b) (hnonneg : 0 ≤ value a)
    (hle : value a ≤ value b) : value (a / b) ∈ Set.Icc (0 : ℝ) 1 := by
  rw [ExactScalar.value_div a hdivisor.ne']
  exact ⟨div_nonneg hnonneg hdivisor.le, (div_le_one hdivisor).mpr hle⟩

theorem RegionAxis.factor?_mem_Icc (r : RegionAxis α) (coordinate : α) :
    (r.factor? coordinate).elim 0 value ∈ Set.Icc (0 : ℝ) 1 := by
  unfold factor?
  split_ifs with hneutral houtside hpeak hbelow
  · simp
  · simp
  · simp
  · rw [ExactScalar.lt_iff, ExactScalar.lt_iff, not_or, not_lt, not_lt] at houtside
    have hbelow := ExactScalar.lt_iff.mp hbelow
    apply value_div_mem_Icc <;> simp only [ExactScalar.value_sub] <;> linarith
  · rw [ExactScalar.lt_iff, ExactScalar.lt_iff, not_or, not_lt, not_lt] at houtside
    have habove : value r.peak < value coordinate :=
      lt_of_le_of_ne (not_lt.mp (ExactScalar.lt_iff.not.mp hbelow))
        fun h => hpeak (ExactScalar.beq_iff.mpr h.symm)
    apply value_div_mem_Icc <;> simp only [ExactScalar.value_sub] <;> linarith

theorem Region.value_product (a : α) (factors : List (Option α)) :
    value (product a factors) = value a * (factors.map (·.elim 0 value)).prod := by
  induction factors generalizing a with
  | nil => rw [product_nil, List.map_nil, List.prod_nil, mul_one]
  | cons f factors ih =>
    rw [List.map_cons, List.prod_cons]
    cases f with
    | none =>
      rw [product_cons_none]
      simp
    | some w => rw [product_cons_some, ih, ExactScalar.value_mul, mul_assoc, Option.elim_some]

theorem Region.value_scalar_mem_Icc (region : Region α) (location : List ℤ) :
    value (region.scalar location) ∈ Set.Icc (0 : ℝ) 1 := by
  rw [scalar_eq_product isReading_value.mul_one region location le_rfl, value_product,
    show value (1 : α) = 1 by simp, one_mul]
  refine Submonoid.list_prod_mem unitInterval.submonoid fun x hx => ?_
  obtain ⟨f, hf, rfl⟩ := List.mem_map.mp hx
  obtain ⟨i, -, rfl⟩ := List.mem_map.mp hf
  cases haxis : region[i]? with
  | none => simp [factorAt?, haxis]
  | some axis =>
    rw [factorAt?, haxis]
    exact axis.factor?_mem_Icc _

end

-- ---------------------------------------------------------------------------
-- Doubles
-- ---------------------------------------------------------------------------

theorem isReading_standsFor : IsReading Double.StandsFor where
  lt_iff := Double.lt_iff
  le_iff := Double.le_iff
  beq_iff := Double.beq_iff
  of_sub := Double.standsFor_of_sub_beq_zero
  mul_one := Double.mul_ofInt_one

theorem exists_standsFor_coordinateAt {location : List ℤ}
    (h : ∀ word ∈ location, -0x8000 ≤ word ∧ word < 0x8000) (i : ℕ) :
    ∃ q, Double.StandsFor (coordinateAt location i) q := by
  have hword : |location.getD i 0| < 2 ^ 53 := by
    rw [abs_lt, List.getD_eq_getElem?_getD]
    cases hi : location[i]? with
    | none => simp
    | some word =>
      have := h word (List.mem_of_getElem? hi)
      simp only [Option.getD_some]
      omega
  exact ⟨_, Scalar.isTwoDotFourteen_ofTwoDotFourteen (α := Float) hword⟩

-- ---------------------------------------------------------------------------
-- All regions
-- ---------------------------------------------------------------------------

/-- The scalar of a region whose axes have any finite positions, at any location. No divisor is zero.
The scalar is one where every coordinate is the peak of its axis, and zero where the coordinate of a
well-formed axis lies outside; other axes have no influence. This is so in doubles and in exact
arithmetic, where the scalar always lies between zero and one. -/
theorem scalar_isWeighed :
    (∀ (region : Region Float) (location : List ℤ),
      (∀ axis ∈ region, axis.All fun x => x.isFinite = true) →
      (∀ word ∈ location, -0x8000 ≤ word ∧ word < 0x8000) →
      region.IsWeighed (fun x => x.isFinite = true) location) ∧
    ∀ {α : Type} [Scalar α] [ExactScalar α] (region : Region α) (location : List ℤ),
      region.IsWeighed (fun _ => True) location ∧ 0 ≤ ExactScalar.value (region.scalar location) ∧
        ExactScalar.value (region.scalar location) ≤ 1 := by
  refine ⟨fun region location hregion hlocation => ?_, fun region location => ⟨?_, ?_⟩⟩
  · exact Region.isWeighed isReading_standsFor
      (fun _ h => ⟨_, Double.standsFor_of_isFinite h⟩) hregion (exists_standsFor_coordinateAt hlocation)
  · exact Region.isWeighed isReading_value (fun a _ => ⟨_, rfl⟩)
      (fun _ _ => ⟨trivial, trivial, trivial⟩) fun _ => ⟨_, rfl⟩
  · exact region.value_scalar_mem_Icc location

/-- A second axis that has its peak at the default does not count, wherever its coordinate is. -/
theorem scalar_isWeighed_neutral :
    let axis : RegionAxis Float := ⟨-1, -0.5, 0⟩
    let region : Region Float := [axis, ⟨0, 0, 1⟩]
    region.checkedScalar? [-12288] = some (region.scalar [-12288]) ∧
      region.scalar [-12288] = Region.scalar [axis] [-12288, 4096] ∧
      region.scalar [-12288] = 0.5 ∧ region.scalar [-8192] = 1 ∧ region.scalar [8192, 4096] = 0 := by
  intro axis region
  have hregion : ∀ axis ∈ region, axis.All fun x => x.isFinite = true := by
    intro r hr
    rcases List.mem_pair.mp hr with rfl | rfl <;> refine ⟨?_, ?_, ?_⟩ <;> decide +kernel
  have haxis : ∀ r ∈ [axis], r.All fun x => x.isFinite = true := fun r hr =>
    hregion r (List.mem_cons.mpr (.inl (List.mem_singleton.mp hr)))
  have hneutral : ¬ RegionAxis.IsWellFormed (⟨0, 0, 1⟩ : RegionAxis Float) := fun h =>
    h.peak_ne (by decide +kernel)
  have hwithin := scalar_isWeighed.1 region [-12288] hregion (by decide)
  refine ⟨hwithin.divides, hwithin.influence haxis ?_ ?_, by decide +kernel, ?_, ?_⟩
  · rintro (_ | _ | i) r hr
    · rfl
    · exact iff_of_false (by rintro ⟨⟩; exact hneutral hr) nofun
    · exact iff_of_false nofun nofun
  · rintro (_ | _ | i) r hr h
    · rfl
    · obtain rfl : ⟨0, 0, 1⟩ = r := Option.some.inj h
      exact absurd hr hneutral
    · cases h
  · refine (scalar_isWeighed.1 region [-8192] hregion (by decide)).peak ?_
    rintro (_ | _ | i) r h
    · obtain rfl : axis = r := Option.some.inj h
      decide +kernel
    · obtain rfl : ⟨0, 0, 1⟩ = r := Option.some.inj h
      decide +kernel
    · cases h
  · refine (scalar_isWeighed.1 region [8192, 4096] hregion (by decide)).outside
      (show region[0]? = some axis from rfl) ⟨?_, ?_, ?_, ?_⟩ (.inr ?_) <;> decide +kernel

end Letterform.Charstring
