import Letterform.Proofs.Hint.Stem
import Letterform.Proofs.Number.Grid

/-!
# Stems on the grid

On the grid of charstring coordinates stems differ exactly if their starts or their widths do, and
the list of an axis is sorted by both. A list is therefore determined by the stems in it.
-/

namespace Letterform

open Scalar (Agree IsFixed units)

variable {α : Type} [Scalar α] [LawfulScalar α]

namespace Stem

/-- A stem on the grid, with its start and width below 2 ^ 20. -/
structure IsSmall (s : Stem α) : Prop where
  start : Agree s.start s.start
  width : Agree s.width s.width

/-- The start and width of a stem, in parts of 1024. -/
noncomputable def place (s : Stem α) : ℤ ×ₗ ℤ := toLex (units s.start, units s.width)

theorem isClose_eq {a b : α} (ha : Agree a a) (hb : Agree b b) :
    Scalar.isClose a b = decide (units a = units b) := by
  have hab := ha.bound
  have hbb := hb.bound
  rw [ha.onGrid.1.isFixed.isClose hb.onGrid.1.isFixed (abs_lt.mpr ⟨by omega, by omega⟩),
    decide_eq_decide, abs_lt]
  omega

theorem isAt_eq {s t : Stem α} (hs : s.IsSmall) (ht : t.IsSmall) :
    s.isAt t.start t.width = decide (s.place = t.place) := by
  rw [isAt, isClose_eq hs.start ht.start, isClose_eq hs.width ht.width, place, place,
    Bool.eq_iff_iff]
  simp

theorem isAfter_iff {s t : Stem α} (hs : s.IsSmall) (ht : t.IsSmall) :
    s.isAfter t = true ↔ t.place < s.place := by
  rw [isAfter, place, place, Prod.Lex.toLex_lt_toLex]
  have hstart := hs.start.onGrid.1.beq_iff ht.start.onGrid.1
  have hlt {a b : α} (ha : Agree a a) (hb : Agree b b) : a < b ↔ units a < units b := by
    rw [ha.onGrid.1.isFixed.lt_iff hb.onGrid.1.isFixed]
    omega
  split_ifs with heq
  · have hu := hstart.mp heq
    rw [decide_eq_true_iff, hlt ht.width hs.width]
    omega
  · have hu := (not_congr hstart).mp heq
    rw [decide_eq_true_iff, hlt ht.start hs.start]
    omega

end Stem

namespace StemHints

omit [LawfulScalar α] in
theorem insert_cons (s t : Stem α) (stems : List (Stem α)) :
    insert s (t :: stems) = if t.isAfter s then s :: t :: stems else t :: insert s stems := by
  unfold insert
  cases h : t.isAfter s <;> simp [h]

omit [LawfulScalar α] in
/-- A list in strict order by some key stays so if the new stem is put in its place by this key. -/
theorem pairwise_insert {β : Type*} [LinearOrder β] (key : Stem α → β) {s : Stem α}
    {stems : List (Stem α)} (hpairwise : stems.Pairwise fun t u => key t < key u)
    (hafter : ∀ t ∈ stems, t.isAfter s = true ↔ key s < key t)
    (hnew : ∀ t ∈ stems, key t ≠ key s) :
    (insert s stems).Pairwise fun t u => key t < key u := by
  induction stems with
  | nil => exact List.pairwise_singleton _ s
  | cons t stems ih =>
    obtain ⟨hfirst, hafter⟩ := List.forall_mem_cons.mp hafter
    obtain ⟨hne, hnew⟩ := List.forall_mem_cons.mp hnew
    obtain ⟨ht, hrest⟩ := List.pairwise_cons.mp hpairwise
    rw [insert_cons]
    split_ifs with hsplit
    · have hlt := hfirst.mp hsplit
      refine List.pairwise_cons.mpr ⟨fun u hu => ?_, hpairwise⟩
      rcases List.mem_cons.mp hu with rfl | hu
      · exact hlt
      · exact hlt.trans (ht u hu)
    · have hlt : key t < key s := lt_of_le_of_ne (not_lt.mp fun hlt => hsplit (hfirst.mpr hlt)) hne
      refine List.pairwise_cons.mpr ⟨fun u hu => ?_, ih hrest hafter hnew⟩
      rcases List.mem_cons.mp ((perm_insert s stems).mem_iff.mp hu) with rfl | hu
      · exact hlt
      · exact ht u hu

/-- The list of an axis: stems on the grid in the order of their places. -/
structure IsSorted (stems : List (Stem α)) : Prop where
  small : ∀ s ∈ stems, s.IsSmall
  pairwise : stems.Pairwise fun s t => s.place < t.place

theorem isSorted_nil : IsSorted ([] : List (Stem α)) := ⟨nofun, .nil⟩

theorem IsSorted.insert {s : Stem α} {stems : List (Stem α)} (h : IsSorted stems) (hs : s.IsSmall)
    (hnew : ∀ t ∈ stems, t.place ≠ s.place) : IsSorted (insert s stems) := by
  refine ⟨fun t ht => ?_, ?_⟩
  · rcases List.mem_cons.mp ((perm_insert s stems).mem_iff.mp ht) with rfl | ht
    · exact hs
    · exact h.small t ht
  · exact pairwise_insert Stem.place h.pairwise
      (fun t ht => Stem.isAfter_iff (h.small t ht) hs) hnew

-- ---------------------------------------------------------------------------
-- Stems that have been added
-- ---------------------------------------------------------------------------

/-- The stems of each axis are sorted, and their numbers are those below the count, where the
counter stands. -/
structure IsOrderly (h : StemHints α) : Prop where
  sorted (axis : Axis) : IsSorted (h.onAxis axis)
  counting : h.IsCounting
  numbers : ((h.horizontal ++ h.vertical).map (·.number)).Perm (List.range h.count)

theorem isOrderly_empty : IsOrderly ({} : StemHints α) := by
  refine ⟨fun axis => ?_, isCounting_empty, .refl _⟩
  cases axis <;> exact ⟨nofun, .nil⟩

omit [LawfulScalar α] in
theorem perm_of_insert {h h' : StemHints α} {axis : Axis} {s : Stem α}
    (hinsert : h'.onAxis axis = insert s (h.onAxis axis))
    (hother : ∀ other ≠ axis, h'.onAxis other = h.onAxis other) :
    (h'.horizontal ++ h'.vertical).Perm (s :: (h.horizontal ++ h.vertical)) := by
  cases axis with
  | horizontal =>
    have hv : h'.vertical = h.vertical := hother .vertical nofun
    rw [show h'.horizontal = insert s h.horizontal from hinsert, hv]
    exact (perm_insert s h.horizontal).append_right h.vertical
  | vertical =>
    have hh : h'.horizontal = h.horizontal := hother .horizontal nofun
    rw [hh, show h'.vertical = insert s h.vertical from hinsert]
    exact ((perm_insert s h.vertical).append_left h.horizontal).trans List.perm_middle

omit [LawfulScalar α] in
theorem numbers_of_insert {h h' : StemHints α} {axis : Axis} {start width : α}
    (hinsert : h'.onAxis axis = insert ⟨start, width, h.count⟩ (h.onAxis axis))
    (hother : ∀ other ≠ axis, h'.onAxis other = h.onAxis other)
    (hnumbers : ((h.horizontal ++ h.vertical).map (·.number)).Perm (List.range h.count)) :
    ((h'.horizontal ++ h'.vertical).map (·.number)).Perm (List.range h'.count) := by
  rw [count_of_insert hinsert hother, List.range_succ]
  refine ((perm_of_insert hinsert hother).map _).trans ?_
  rw [List.map_cons]
  exact (hnumbers.cons h.count).trans (List.perm_append_singleton _ _).symm

theorem IsOrderly.add {h h' : StemHints α} (horderly : h.IsOrderly) {axis : Axis} {start width : α}
    {n : ℕ} (hadd : h.add axis start width = some (n, h'))
    (hsmall : ∀ s ∈ h'.onAxis axis, s.IsSmall) : h'.IsOrderly := by
  rcases add_cases hadd with ⟨_, _, _, _, rfl⟩ | ⟨hnew, hnext, -, hinsert, hother⟩
  · exact horderly
  obtain rfl := horderly.counting.eq_count hnext
  have hs : (⟨start, width, h.count⟩ : Stem α).IsSmall := by
    refine hsmall _ (hinsert ▸ (perm_insert _ _).mem_iff.mpr List.mem_cons_self)
  have hplace : ∀ t ∈ h.onAxis axis, t.place ≠ (⟨start, width, h.count⟩ : Stem α).place := by
    intro t ht heq
    have hat := Stem.isAt_eq ((horderly.sorted axis).small t ht) hs
    rw [decide_eq_true heq, hnew t ht] at hat
    cases hat
  refine ⟨fun other => ?_, horderly.counting.add hadd,
    numbers_of_insert hinsert hother horderly.numbers⟩
  by_cases hne : other = axis
  · rw [hne, hinsert]
    exact (horderly.sorted axis).insert hs hplace
  · rw [hother other hne]
    exact horderly.sorted other

omit [LawfulScalar α] in
theorem mem_of_addAll {stems : List (Axis × α × α)} {h h' : StemHints α} {ns : List ℕ}
    (hall : addAll stems h = some (ns, h')) {axis : Axis} {s : Stem α} (hs : s ∈ h.onAxis axis) :
    s ∈ h'.onAxis axis := by
  induction stems generalizing h ns with
  | nil =>
    obtain ⟨-, rfl⟩ := Prod.mk.inj (Option.some.inj hall)
    exact hs
  | cons stem stems ih =>
    obtain ⟨_, h1, _, hadd, hrest, -⟩ := addAll_cons.mp hall
    refine ih hrest ?_
    rcases add_cases hadd with ⟨_, _, _, _, rfl⟩ | ⟨-, -, -, hinsert, hother⟩
    · exact hs
    · by_cases hne : axis = stem.1
      · subst hne
        exact hinsert ▸ (perm_insert _ _).mem_iff.mpr (List.mem_cons_of_mem _ hs)
      · rw [hother axis hne]
        exact hs

theorem IsOrderly.addAll {stems : List (Axis × α × α)} {h h' : StemHints α} {ns : List ℕ}
    (horderly : h.IsOrderly) (hall : StemHints.addAll stems h = some (ns, h'))
    (hsmall : ∀ axis, ∀ s ∈ h'.onAxis axis, s.IsSmall) : h'.IsOrderly := by
  induction stems generalizing h ns with
  | nil =>
    obtain ⟨-, rfl⟩ := Prod.mk.inj (Option.some.inj hall)
    exact horderly
  | cons stem stems ih =>
    obtain ⟨_, h1, _, hadd, hrest, -⟩ := addAll_cons.mp hall
    exact ih (horderly.add hadd fun s hs => hsmall _ s (mem_of_addAll hrest hs)) hrest

-- ---------------------------------------------------------------------------
-- New stems
-- ---------------------------------------------------------------------------

/-- Stems with these starts and widths, numbered from `n` on. -/
def numbered (n : ℕ) (stems : List (α × α)) : List (Stem α) :=
  (stems.zipIdx n).map fun ((start, width), number) => { start, width, number }

omit [Scalar α] [LawfulScalar α] in
theorem numbered_cons (n : ℕ) (start width : α) (stems : List (α × α)) :
    numbered n ((start, width) :: stems) = ⟨start, width, n⟩ :: numbered (n + 1) stems := rfl

omit [LawfulScalar α] in
theorem IsCounting.add_new {h : StemHints α} (hh : h.IsCounting) {axis : Axis} {start width : α}
    (hnew : ∀ s ∈ h.onAxis axis, s.isAt start width = false) (hroom : h.count < limit) :
    ∃ h', h.add axis start width = some (h.count, h') ∧
      h'.onAxis axis = insert ⟨start, width, h.count⟩ (h.onAxis axis) ∧
      ∀ other ≠ axis, h'.onAxis other = h.onAxis other := by
  obtain ⟨n, h', hadd⟩ := hh.exists_add hroom axis start width
  rcases add_cases hadd with ⟨s, hs, hat, -, -⟩ | ⟨-, hnext, -, hinsert, hother⟩
  · rw [hnew s hs] at hat
    cases hat
  · obtain rfl := hh.eq_count hnext
    exact ⟨h', hadd, hinsert, hother⟩

theorem IsCounting.addAll_new (axis : Axis) {stems : List (α × α)} {h : StemHints α}
    (hh : h.IsCounting) (hsorted : IsSorted (h.onAxis axis)) (hsmall : ∀ s ∈ numbered h.count stems, s.IsSmall)
    (hnew : ((h.onAxis axis ++ numbered h.count stems).map Stem.place).Nodup)
    (hroom : h.count + stems.length ≤ limit) :
    ∃ h', StemHints.addAll (stems.map (axis, ·)) h = some (List.range' h.count stems.length, h') ∧
      IsSorted (h'.onAxis axis) ∧
      (h'.onAxis axis).Perm (h.onAxis axis ++ numbered h.count stems) ∧
      ∀ other ≠ axis, h'.onAxis other = h.onAxis other := by
  induction stems generalizing h with
  | nil => exact ⟨h, rfl, hsorted, by simp [numbered], fun _ _ => rfl⟩
  | cons stem stems ih =>
    obtain ⟨start, width⟩ := stem
    rw [numbered_cons] at hsmall hnew
    rw [List.length_cons] at hroom
    obtain ⟨hs, hsmall⟩ := List.forall_mem_cons.mp hsmall
    have hmiddle : (h.onAxis axis ++ ⟨start, width, h.count⟩ :: numbered (h.count + 1) stems).Perm
        (⟨start, width, h.count⟩ :: (h.onAxis axis ++ numbered (h.count + 1) stems)) :=
      List.perm_middle
    have hnodup := (hmiddle.map Stem.place).nodup_iff.mp hnew
    rw [List.map_cons, List.nodup_cons] at hnodup
    have hplace : ∀ t ∈ h.onAxis axis, t.place ≠ (⟨start, width, h.count⟩ : Stem α).place :=
      fun t ht heq => hnodup.1 (heq ▸ List.mem_map_of_mem (List.mem_append_left _ ht))
    have hfresh : ∀ t ∈ h.onAxis axis, t.isAt start width = false := by
      intro t ht
      rw [← decide_eq_false (hplace t ht), ← Stem.isAt_eq (hsorted.small t ht) hs]
    obtain ⟨h1, hadd, hinsert, hother⟩ := hh.add_new hfresh (by omega)
    have hcount := count_of_insert hinsert hother
    have hinserted : (h1.onAxis axis ++ numbered h1.count stems).Perm
        (h.onAxis axis ++ ⟨start, width, h.count⟩ :: numbered (h.count + 1) stems) := by
      rw [hinsert, hcount]
      exact ((perm_insert _ _).append_right _).trans hmiddle.symm
    obtain ⟨h', hall, hsorted', hperm, hother'⟩ := ih (h := h1) (hh.add hadd)
      (hinsert ▸ hsorted.insert hs hplace) (hcount ▸ hsmall)
      ((hinserted.map Stem.place).nodup_iff.mpr hnew) (by omega)
    refine ⟨h', ?_, hsorted', hperm.trans hinserted, fun other hne =>
      (hother' other hne).trans (hother other hne)⟩
    rw [List.length_cons, List.range'_succ, ← hcount]
    exact addAll_cons.mpr ⟨h.count, h1, _, hadd, hall, rfl⟩

end StemHints

end Letterform
