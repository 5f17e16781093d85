import Letterform.Hint.Stem
import Mathlib

/-!
# Adding stems

Stems are added one after another, each on an axis. As long as there are numbers left this always
succeeds.
-/

namespace Letterform.StemHints

variable {α : Type} [Scalar α]

-- ---------------------------------------------------------------------------
-- One stem
-- ---------------------------------------------------------------------------

theorem perm_insert (stem : Stem α) (stems : List (Stem α)) :
    (insert stem stems).Perm (stem :: stems) := by
  unfold insert
  conv_rhs => rw [← List.takeWhile_append_dropWhile (p := (!·.isAfter stem)) (l := stems)]
  exact List.perm_middle

/-- Adding finds a stem that is there already, or puts a new one with the counter as its number in
its place. -/
theorem add_cases {h h' : StemHints α} {axis : Axis} {start width : α} {n : ℕ}
    (hadd : h.add axis start width = some (n, h')) :
    (∃ stem ∈ h.onAxis axis, stem.isAt start width = true ∧ stem.number = n ∧ h' = h) ∨
      ((∀ stem ∈ h.onAxis axis, stem.isAt start width = false) ∧ h.next = some n ∧
        h'.next = numberAt (n + 1) ∧ h'.onAxis axis = insert ⟨start, width, n⟩ (h.onAxis axis) ∧
        ∀ other ≠ axis, h'.onAxis other = h.onAxis other) := by
  unfold add at hadd
  split at hadd
  · rename_i stem hfind
    obtain ⟨rfl, rfl⟩ : stem.number = n ∧ h = h' := by simpa using hadd
    have hat : stem.isAt start width = true := by simpa using List.find?_some hfind
    exact .inl ⟨stem, List.mem_of_find?_eq_some hfind, hat, rfl, rfl⟩
  · rename_i hfind
    have hnone : ∀ stem ∈ h.onAxis axis, stem.isAt start width = false := by simpa using hfind
    obtain ⟨number, hnext, hadd⟩ := Option.bind_eq_some_iff.mp hadd
    obtain ⟨rfl, rfl⟩ := Prod.mk.inj (Option.some.inj hadd)
    refine .inr ⟨hnone, hnext, ?_, ?_, fun other hother => ?_⟩
    · cases axis <;> rfl
    · cases axis <;> rfl
    · cases axis <;> cases other <;> first | rfl | exact absurd rfl hother

theorem add_eq_none_iff {h : StemHints α} {axis : Axis} {start width : α} :
    h.add axis start width = none ↔
      (∀ s ∈ h.onAxis axis, s.isAt start width = false) ∧ h.next = none := by
  unfold add
  split
  · rename_i s hfind
    have hat : s.isAt start width = true := by simpa using List.find?_some hfind
    refine iff_of_false nofun fun hnone => ?_
    rw [hnone.1 s (List.mem_of_find?_eq_some hfind)] at hat
    cases hat
  · rename_i hfind
    have hnone : ∀ s ∈ h.onAxis axis, s.isAt start width = false := by simpa using hfind
    cases hnext : h.next with
    | none => exact iff_of_true rfl ⟨hnone, rfl⟩
    | some n => exact iff_of_false nofun fun hfull => nomatch hfull.2

omit [Scalar α] in
theorem count_eq (h : StemHints α) (axis other : Axis) (hne : other ≠ axis) :
    h.count = (h.onAxis axis).length + (h.onAxis other).length := by
  cases axis <;> cases other <;> first | exact absurd rfl hne | skip
  · rfl
  · exact Nat.add_comm _ _

theorem exists_ne (axis : Axis) : ∃ other : Axis, other ≠ axis := by
  cases axis
  · exact ⟨.vertical, nofun⟩
  · exact ⟨.horizontal, nofun⟩

theorem count_of_insert {h h' : StemHints α} {axis : Axis} {s : Stem α}
    (hinsert : h'.onAxis axis = insert s (h.onAxis axis))
    (hother : ∀ other ≠ axis, h'.onAxis other = h.onAxis other) : h'.count = h.count + 1 := by
  obtain ⟨other, hne⟩ := exists_ne axis
  rw [h'.count_eq axis other hne, h.count_eq axis other hne, hinsert, hother other hne,
    (perm_insert _ _).length_eq, List.length_cons]
  omega

-- ---------------------------------------------------------------------------
-- The counter
-- ---------------------------------------------------------------------------

theorem numberAt_eq_some {n k : ℕ} : numberAt n = some k ↔ n = k ∧ n < limit := by
  rw [numberAt]
  split_ifs with hlt
  · simp [hlt]
  · simp [hlt]

theorem numberAt_eq_none {n : ℕ} : numberAt n = none ↔ limit ≤ n := by
  simp [numberAt]

/-- The counter stands at the number of stems, be it that there is no such number any more. -/
def IsCounting (h : StemHints α) : Prop := h.next = numberAt h.count ∧ h.count ≤ limit

omit [Scalar α] in
theorem isCounting_empty : IsCounting ({} : StemHints α) := ⟨rfl, Nat.zero_le _⟩

theorem IsCounting.add {h h' : StemHints α} (hh : h.IsCounting) {axis : Axis} {start width : α}
    {n : ℕ} (hadd : h.add axis start width = some (n, h')) : h'.IsCounting := by
  rcases add_cases hadd with ⟨_, _, _, _, rfl⟩ | ⟨-, hnext, hnext', hinsert, hother⟩
  · exact hh
  · obtain ⟨rfl, hroom⟩ := numberAt_eq_some.mp (hh.1.symm.trans hnext)
    rw [IsCounting, count_of_insert hinsert hother]
    exact ⟨hnext', hroom⟩

omit [Scalar α] in
theorem IsCounting.eq_count {h : StemHints α} (hh : h.IsCounting) {n : ℕ} (hnext : h.next = some n) :
    n = h.count :=
  (numberAt_eq_some.mp (hh.1.symm.trans hnext)).1.symm

theorem count_add {h h' : StemHints α} {axis : Axis} {start width : α} {n : ℕ}
    (hadd : h.add axis start width = some (n, h')) : h'.count ≤ h.count + 1 := by
  rcases add_cases hadd with ⟨_, _, _, _, rfl⟩ | ⟨-, -, -, hinsert, hother⟩
  · exact Nat.le_succ _
  · exact (count_of_insert hinsert hother).le

theorem IsCounting.exists_add {h : StemHints α} (hh : h.IsCounting) (hroom : h.count < limit)
    (axis : Axis) (start width : α) : ∃ n h', h.add axis start width = some (n, h') := by
  cases hadd : h.add axis start width with
  | some answer => exact ⟨answer.1, answer.2, rfl⟩
  | none =>
    have hnone := (add_eq_none_iff.mp hadd).2
    rw [hh.1, numberAt_eq_none] at hnone
    omega

-- ---------------------------------------------------------------------------
-- The order of declaration
-- ---------------------------------------------------------------------------

/-- The numbers of the stems in the order in which a charstring declares them. -/
def order (h : StemHints α) : List ℕ :=
  (h.declared .horizontal ++ h.declared .vertical).map (·.number)

omit [Scalar α] in
theorem perm_declared (h : StemHints α) (axis : Axis) : (h.declared axis).Perm (h.onAxis axis) :=
  List.mergeSort_perm _ _

omit [Scalar α] in
theorem length_order (h : StemHints α) : h.order.length = h.count := by
  rw [order, List.length_map, List.length_append, (h.perm_declared .horizontal).length_eq,
    (h.perm_declared .vertical).length_eq]
  rfl

omit [Scalar α] in
theorem isEmpty_order (h : StemHints α) : h.order.isEmpty = h.isEmpty := by
  rw [isEmpty, ← h.length_order]
  cases h.order <;> rfl

-- ---------------------------------------------------------------------------
-- Many stems
-- ---------------------------------------------------------------------------

/-- Adds stems one after another and lists their numbers. -/
def addAll : List (Axis × α × α) → StemHints α → Option (List ℕ × StemHints α)
  | [], h => some ([], h)
  | (axis, start, width) :: rest, h => do
    let (n, h) ← h.add axis start width
    let (ns, h) ← addAll rest h
    return (n :: ns, h)

theorem addAll_cons {axis : Axis} {start width : α} {rest : List (Axis × α × α)}
    {h h' : StemHints α} {ns : List ℕ} :
    addAll ((axis, start, width) :: rest) h = some (ns, h') ↔
      ∃ n h1 ns', h.add axis start width = some (n, h1) ∧ addAll rest h1 = some (ns', h') ∧
        ns = n :: ns' := by
  constructor
  · intro hall
    simp only [addAll, Option.bind_eq_bind, Option.bind_eq_some_iff, Prod.exists] at hall
    obtain ⟨n, h1, hadd, ns', h2, hrest, heq⟩ := hall
    obtain ⟨rfl, rfl⟩ := Prod.mk.inj (Option.some.inj heq)
    exact ⟨n, h1, ns', hadd, hrest, rfl⟩
  · rintro ⟨n, h1, ns', hadd, hrest, rfl⟩
    simp only [addAll, hadd, hrest, Option.bind_eq_bind, Option.bind_some]
    rfl

theorem addAll_append {first second : List (Axis × α × α)} {h h' : StemHints α} {ns : List ℕ} :
    addAll (first ++ second) h = some (ns, h') ↔
      ∃ ns1 h1 ns2, addAll first h = some (ns1, h1) ∧ addAll second h1 = some (ns2, h') ∧
        ns = ns1 ++ ns2 := by
  induction first generalizing h ns with
  | nil =>
    constructor
    · exact fun hall => ⟨[], h, ns, rfl, hall, rfl⟩
    · rintro ⟨_, _, ns2, heq, hall, rfl⟩
      obtain ⟨rfl, rfl⟩ := Prod.mk.inj (Option.some.inj heq)
      exact hall
  | cons s first ih =>
    obtain ⟨axis, start, width⟩ := s
    rw [List.cons_append, addAll_cons]
    simp only [ih, addAll_cons]
    constructor
    · rintro ⟨n, h1, _, hadd, ⟨ns1, h2, ns2, hfirst, hsecond, rfl⟩, rfl⟩
      exact ⟨n :: ns1, h2, ns2, ⟨n, h1, ns1, hadd, hfirst, rfl⟩, hsecond, rfl⟩
    · rintro ⟨_, h2, ns2, ⟨n, h1, ns1, hadd, hfirst, rfl⟩, hsecond, rfl⟩
      exact ⟨n, h1, ns1 ++ ns2, hadd, ⟨ns1, h2, ns2, hfirst, hsecond, rfl⟩, rfl⟩

theorem length_addAll {stems : List (Axis × α × α)} {h h' : StemHints α} {ns : List ℕ}
    (hall : addAll stems h = some (ns, h')) : ns.length = stems.length := by
  induction stems generalizing h ns with
  | nil =>
    obtain ⟨rfl, -⟩ := Prod.mk.inj (Option.some.inj hall)
    rfl
  | cons s stems ih =>
    obtain ⟨_, _, ns', -, hrest, rfl⟩ := addAll_cons.mp hall
    rw [List.length_cons, List.length_cons, ih hrest]

theorem IsCounting.exists_addAll (stems : List (Axis × α × α)) {h : StemHints α} (hh : h.IsCounting)
    (hroom : h.count + stems.length ≤ limit) : ∃ ns h', addAll stems h = some (ns, h') := by
  induction stems generalizing h with
  | nil => exact ⟨[], h, rfl⟩
  | cons s stems ih =>
    obtain ⟨axis, start, width⟩ := s
    rw [List.length_cons] at hroom
    obtain ⟨n, h1, hadd⟩ := hh.exists_add (by omega) axis start width
    have := count_add hadd
    obtain ⟨ns, h', hrest⟩ := ih (hh.add hadd) (by omega)
    exact ⟨n :: ns, h', addAll_cons.mpr ⟨n, h1, ns, hadd, hrest, rfl⟩⟩

theorem IsCounting.addAll {stems : List (Axis × α × α)} {h h' : StemHints α} {ns : List ℕ}
    (hh : h.IsCounting) (hall : StemHints.addAll stems h = some (ns, h')) : h'.IsCounting := by
  induction stems generalizing h ns with
  | nil =>
    obtain ⟨-, rfl⟩ := Prod.mk.inj (Option.some.inj hall)
    exact hh
  | cons s stems ih =>
    obtain ⟨_, _, _, hadd, hrest, -⟩ := addAll_cons.mp hall
    exact ih (hh.add hadd) hrest

theorem mem_or_mem_of_addAll {stems : List (Axis × α × α)} {h h' : StemHints α} {ns : List ℕ}
    (hall : addAll stems h = some (ns, h')) {axis : Axis} {s : Stem α} (hs : s ∈ h'.onAxis axis) :
    s ∈ h.onAxis axis ∨ (axis, s.start, s.width) ∈ stems := by
  induction stems generalizing h ns with
  | nil =>
    obtain ⟨-, rfl⟩ := Prod.mk.inj (Option.some.inj hall)
    exact .inl hs
  | cons stem stems ih =>
    obtain ⟨first, start, width⟩ := stem
    obtain ⟨_, h1, _, hadd, hrest, -⟩ := addAll_cons.mp hall
    rcases ih hrest with hmem | hmem
    · rcases add_cases hadd with ⟨_, _, _, _, rfl⟩ | ⟨-, -, -, hinsert, hother⟩
      · exact .inl hmem
      · by_cases hne : axis = first
        · subst hne
          rw [hinsert] at hmem
          rcases List.mem_cons.mp ((perm_insert _ _).mem_iff.mp hmem) with rfl | hmem
          · exact .inr List.mem_cons_self
          · exact .inl hmem
        · exact .inl (hother axis hne ▸ hmem)
    · exact .inr (List.mem_cons_of_mem _ hmem)

end Letterform.StemHints
