import Letterform.Proofs.Hint.Place
import Letterform.Proofs.Hint.Renumbering
import Letterform.Proofs.Number.Closeness

/-!
# Stems under requests

The stems of a glyph come about by requests, each of which adds a stem or removes all of them. Their
starts and widths need not be on the grid. The lookup goes by a tolerance and the order of a list
does not, so two stems may lie arbitrarily close to the tolerance without being the same; what holds
of the lists after every request is the invariant `IsConsistent`.
-/

namespace Letterform

open Double (StandsFor value unpacked standsFor_of_isFinite)

-- ---------------------------------------------------------------------------
-- Stems off the grid
-- ---------------------------------------------------------------------------

namespace Stem

structure IsFinite (s : Stem Float) : Prop where
  start : s.start.isFinite = true
  width : s.width.isFinite = true

/-- A stem stands before another one: by start, then by width. -/
def Precedes (s t : Stem Float) : Prop :=
  s.start < t.start ∨ (s.start == t.start) = true ∧ s.width < t.width

def Matches (s t : Stem Float) : Prop := s.isAt t.start t.width = true

/-- The numbers that the start and the width of a stem stand for. -/
def key (s : Stem Float) : ℚ ×ₗ ℚ := toLex (value (unpacked s.start), value (unpacked s.width))

theorem precedes_iff {s t : Stem Float} (hs : s.IsFinite) (ht : t.IsFinite) :
    s.Precedes t ↔ s.key < t.key := by
  rw [Precedes, key, key, Prod.Lex.toLex_lt_toLex,
    Double.lt_iff (standsFor_of_isFinite hs.start) (standsFor_of_isFinite ht.start),
    Double.beq_iff (standsFor_of_isFinite hs.start) (standsFor_of_isFinite ht.start),
    Double.lt_iff (standsFor_of_isFinite hs.width) (standsFor_of_isFinite ht.width)]

theorem isAfter_iff_precedes {s t : Stem Float} (hs : s.IsFinite) (ht : t.IsFinite) :
    s.isAfter t = true ↔ t.Precedes s := by
  have hbeq := Double.beq_iff (standsFor_of_isFinite hs.start) (standsFor_of_isFinite ht.start)
  have hlt := Double.lt_iff (standsFor_of_isFinite ht.start) (standsFor_of_isFinite hs.start)
  have hwidth := Double.lt_iff (standsFor_of_isFinite ht.width) (standsFor_of_isFinite hs.width)
  rw [precedes_iff ht hs, isAfter, key, key, Prod.Lex.toLex_lt_toLex]
  split_ifs with heq
  · have := hbeq.mp heq
    rw [decide_eq_true_iff, hwidth, this]
    simp
  · have := (not_congr hbeq).mp heq
    rw [decide_eq_true_iff, hlt, or_iff_left fun h => this h.1.symm]

theorem not_matches {s : Stem Float} {start width : Float} (h : s.isAt start width = false)
    (n : ℕ) : ¬ s.Matches ⟨start, width, n⟩ := by
  rw [Matches, h]
  exact Bool.false_ne_true

theorem matches_comm {s t : Stem Float} : s.Matches t ↔ t.Matches s := by
  rw [Matches, Matches, isAt, isAt, Double.isClose_comm s.start, Double.isClose_comm s.width]

theorem matches_of_key_eq {s t : Stem Float} (hs : s.IsFinite) (ht : t.IsFinite)
    (h : s.key = t.key) : s.Matches t := by
  obtain ⟨hstart, hwidth⟩ := Prod.mk.inj (toLex.injective h)
  have hsame {x y : Float} (hx : x.isFinite = true) (hy : y.isFinite = true)
      (heq : value (unpacked x) = value (unpacked y)) : Scalar.isClose x y = true :=
    have hy := standsFor_of_isFinite hy
    Double.isClose_of_beq hy ((Double.beq_iff (standsFor_of_isFinite hx) hy).mpr heq)
  rw [Matches, isAt, hsame hs.start ht.start hstart, hsame hs.width ht.width hwidth]
  rfl

end Stem

namespace StemHints

-- ---------------------------------------------------------------------------
-- Requests
-- ---------------------------------------------------------------------------

inductive Request (α : Type)
  | add (axis : Axis) (start width : α)
  | clear

def Request.IsFinite : Request Float → Prop
  | .add _ start width => start.isFinite = true ∧ width.isFinite = true
  | .clear => True

instance : DecidablePred Request.IsFinite
  | .add _ start width =>
    inferInstanceAs (Decidable (start.isFinite = true ∧ width.isFinite = true))
  | .clear => inferInstanceAs (Decidable True)

section

variable {α : Type} [Scalar α]

/-- The answer to a request, if it does not fail, and the stems after it. -/
def obey (h : StemHints α) : Request α → Option ℕ × StemHints α
  | .add axis start width =>
    match h.add axis start width with
    | some (number, h') => (some number, h')
    | none => (none, h)
  | .clear => (none, {})

def obeyAll (requests : List (Request α)) (h : StemHints α) : StemHints α :=
  requests.foldl (fun h request => (h.obey request).2) h

theorem obeyAll_induction {P : StemHints α → Prop} {requests : List (Request α)} {h : StemHints α}
    (hh : P h) (hstep : ∀ request ∈ requests, ∀ h, P h → P (h.obey request).2) :
    P (obeyAll requests h) := by
  induction requests generalizing h with
  | nil => exact hh
  | cons request requests ih =>
    obtain ⟨hfirst, hrest⟩ := List.forall_mem_cons.mp hstep
    exact ih (hfirst h hh) hrest

theorem obey_cases (h : StemHints α) (axis : Axis) (start width : α) :
    (∃ n h', h.add axis start width = some (n, h') ∧
        h.obey (.add axis start width) = (some n, h')) ∨
      h.add axis start width = none ∧ h.obey (.add axis start width) = (none, h) := by
  rw [obey]
  cases hadd : h.add axis start width with
  | none => exact .inr ⟨rfl, rfl⟩
  | some answer => exact .inl ⟨answer.1, answer.2, rfl, rfl⟩

theorem sublist_insert (s : Stem α) (stems : List (Stem α)) : stems.Sublist (insert s stems) := by
  conv_lhs => rw [← List.takeWhile_append_dropWhile (p := (!·.isAfter s)) (l := stems)]
  exact (List.Sublist.refl _).append (List.sublist_cons_self _ _)

theorem sublist_add {h h' : StemHints α} {axis : Axis} {start width : α} {n : ℕ}
    (hadd : h.add axis start width = some (n, h')) (other : Axis) :
    (h.onAxis other).Sublist (h'.onAxis other) := by
  rcases add_cases hadd with ⟨_, _, _, _, rfl⟩ | ⟨-, -, -, hinsert, hother⟩
  · exact .refl _
  · by_cases hne : other = axis
    · rw [hne, hinsert]
      exact sublist_insert _ _
    · rw [hother other hne]

end

-- ---------------------------------------------------------------------------
-- The invariant
-- ---------------------------------------------------------------------------

/-- What holds of the stems after any requests, be they for numbers or not: no axis holds a stem
twice, and the stems of both axes together have the numbers below their count, where the counter
stands. They are declared in the order of their numbers. -/
structure IsNumbered (h : StemHints Float) : Prop where
  distinct (axis : Axis) : (h.onAxis axis).Pairwise fun s t => ¬ s.Matches t ∧ ¬ t.Matches s
  numbers : ((h.horizontal ++ h.vertical).map (·.number)).Perm (List.range h.count)
  counting : h.IsCounting
  perm_declared (axis : Axis) : (h.declared axis).Perm (h.onAxis axis)
  declared_ascending (axis : Axis) :
    (h.declared axis).Pairwise fun s t => s.number < t.number

/-- Stems that are numbers are also in strict order on each axis. -/
structure IsConsistent (h : StemHints Float) : Prop extends h.IsNumbered where
  finite (axis : Axis) : ∀ s ∈ h.onAxis axis, s.IsFinite
  ascending (axis : Axis) : (h.onAxis axis).Pairwise Stem.Precedes

theorem nodup_numbers {h : StemHints Float}
    (hnumbers : ((h.horizontal ++ h.vertical).map (·.number)).Perm (List.range h.count))
    (axis : Axis) : ((h.onAxis axis).map (·.number)).Nodup := by
  have hnodup := hnumbers.nodup_iff.mpr List.nodup_range
  rw [List.map_append] at hnodup
  cases axis with
  | horizontal => exact hnodup.of_append_left
  | vertical => exact hnodup.of_append_right

theorem pairwise_declared_lt {h : StemHints Float}
    (hnumbers : ((h.horizontal ++ h.vertical).map (·.number)).Perm (List.range h.count))
    (axis : Axis) : (h.declared axis).Pairwise fun s t => s.number < t.number := by
  have hnodup : ((h.declared axis).map (·.number)).Nodup :=
    ((h.perm_declared axis).map _).nodup_iff.mpr (nodup_numbers hnumbers axis)
  exact (h.pairwise_declared axis).imp₂ (fun _ _ hle hne => lt_of_le_of_ne hle hne)
    (List.pairwise_map.mp hnodup)

theorem isConsistent_empty : IsConsistent {} where
  distinct axis := by cases axis <;> exact .nil
  numbers := .refl _
  counting := isCounting_empty
  perm_declared := perm_declared {}
  declared_ascending := pairwise_declared_lt (.refl _)
  finite axis := by cases axis <;> exact nofun
  ascending axis := by cases axis <;> exact .nil

/-- The lookup comes before the insertion, so what is inserted matches none of the others. -/
theorem IsNumbered.add {h h' : StemHints Float} (hh : h.IsNumbered) {axis : Axis}
    {start width : Float} {n : ℕ} (hadd : h.add axis start width = some (n, h')) :
    h'.IsNumbered := by
  rcases add_cases hadd with ⟨_, _, _, _, rfl⟩ | ⟨hnew, hnext, -, hinsert, hother⟩
  · exact hh
  obtain rfl := hh.counting.eq_count hnext
  have hnumbers := numbers_of_insert hinsert hother hh.numbers
  refine ⟨fun other => ?_, hnumbers, hh.counting.add hadd, h'.perm_declared,
    pairwise_declared_lt hnumbers⟩
  by_cases hne : other = axis
  · rw [hne, hinsert]
    refine (perm_insert _ _).symm.pairwise ?_ fun hboth => hboth.symm
    refine List.pairwise_cons.mpr ⟨fun t ht => ?_, hh.distinct axis⟩
    have hfresh := Stem.not_matches (hnew t ht) h.count
    exact ⟨fun hmatch => hfresh (Stem.matches_comm.mp hmatch), hfresh⟩
  · exact hother other hne ▸ hh.distinct other

/-- The order of a list is that of the keys of its stems. A new stem has a key of its own, since
stems with the same key match. -/
theorem IsConsistent.add {h h' : StemHints Float} (hh : h.IsConsistent) {axis : Axis}
    {start width : Float} {n : ℕ} (hstart : start.isFinite = true) (hwidth : width.isFinite = true)
    (hadd : h.add axis start width = some (n, h')) : h'.IsConsistent := by
  have hnumbered := hh.toIsNumbered.add hadd
  rcases add_cases hadd with ⟨_, _, _, _, rfl⟩ | ⟨hnew, -, -, hinsert, hother⟩
  · exact hh
  let s : Stem Float := ⟨start, width, n⟩
  have hs : s.IsFinite := ⟨hstart, hwidth⟩
  have hold := hh.finite axis
  have hfinite : ∀ t ∈ h'.onAxis axis, t.IsFinite := by
    intro t ht
    rw [hinsert] at ht
    rcases List.mem_cons.mp ((perm_insert s _).mem_iff.mp ht) with rfl | ht
    · exact hs
    · exact hold t ht
  have hkeys : (h.onAxis axis).Pairwise fun t u => t.key < u.key :=
    (hh.ascending axis).imp_of_mem fun ht hu hlt =>
      (Stem.precedes_iff (hold _ ht) (hold _ hu)).mp hlt
  have hkeys' : (h'.onAxis axis).Pairwise fun t u => t.key < u.key := by
    rw [hinsert]
    refine pairwise_insert Stem.key hkeys (fun t ht => ?_) fun t ht heq => ?_
    · exact (Stem.isAfter_iff_precedes (hold t ht) hs).trans (Stem.precedes_iff hs (hold t ht))
    · exact Stem.not_matches (hnew t ht) n (Stem.matches_of_key_eq (hold t ht) hs heq)
  refine ⟨hnumbered, fun other => ?_, fun other => ?_⟩
  · by_cases hne : other = axis
    · exact hne ▸ hfinite
    · exact hother other hne ▸ hh.finite other
  · by_cases hne : other = axis
    · rw [hne]
      exact hkeys'.imp_of_mem fun ht hu hlt =>
        (Stem.precedes_iff (hfinite _ ht) (hfinite _ hu)).mpr hlt
    · exact hother other hne ▸ hh.ascending other

theorem IsNumbered.obey {h : StemHints Float} (hh : h.IsNumbered) (request : Request Float) :
    (h.obey request).2.IsNumbered := by
  cases request with
  | clear => exact isConsistent_empty.toIsNumbered
  | add axis start width =>
    rcases h.obey_cases axis start width with ⟨n, h', hadd, heq⟩ | ⟨-, heq⟩ <;> rw [heq]
    · exact hh.add hadd
    · exact hh

theorem IsConsistent.obey {h : StemHints Float} (hh : h.IsConsistent) {request : Request Float}
    (hfinite : request.IsFinite) : (h.obey request).2.IsConsistent := by
  cases request with
  | clear => exact isConsistent_empty
  | add axis start width =>
    rcases h.obey_cases axis start width with ⟨n, h', hadd, heq⟩ | ⟨-, heq⟩ <;> rw [heq]
    · exact hh.add hfinite.1 hfinite.2 hadd
    · exact hh

theorem isNumbered_obeyAll (requests : List (Request Float)) : (obeyAll requests {}).IsNumbered :=
  obeyAll_induction isConsistent_empty.toIsNumbered fun request _ _ hh => hh.obey request

theorem isConsistent_obeyAll {requests : List (Request Float)}
    (hfinite : ∀ request ∈ requests, request.IsFinite) : (obeyAll requests {}).IsConsistent :=
  obeyAll_induction isConsistent_empty fun request hrequest _ hh =>
    hh.obey (hfinite request hrequest)

example : (obeyAll [.add .vertical 30 20, .add .vertical 10 20, .add .vertical 10 5]
    ({} : StemHints Float)).vertical = [⟨10, 5, 2⟩, ⟨10, 20, 1⟩, ⟨30, 20, 0⟩] := by decide +kernel

-- ---------------------------------------------------------------------------
-- Answers
-- ---------------------------------------------------------------------------

theorem isAt_self {s : Stem Float} (hs : s.IsFinite) : s.isAt s.start s.width = true :=
  Stem.matches_of_key_eq hs hs rfl

theorem find?_of_add {h h' : StemHints Float} {axis : Axis} {start width : Float} {n : ℕ}
    (hstart : start.isFinite = true) (hwidth : width.isFinite = true)
    (hadd : h.add axis start width = some (n, h')) :
    ∃ s, (h'.onAxis axis).find? (·.isAt start width) = some s ∧ s.number = n := by
  cases hfind : (h.onAxis axis).find? (·.isAt start width) with
  | some s =>
    rw [StemHints.add, hfind] at hadd
    obtain ⟨rfl, rfl⟩ := Prod.mk.inj (Option.some.inj hadd)
    exact ⟨s, hfind, rfl⟩
  | none =>
    have hnew := List.find?_eq_none.mp hfind
    rcases add_cases hadd with ⟨s, hs, hat, -, -⟩ | ⟨-, -, -, hinsert, -⟩
    · exact absurd hat (hnew s hs)
    have hself : (⟨start, width, n⟩ : Stem Float).isAt start width = true :=
      isAt_self ⟨hstart, hwidth⟩
    have hbefore := List.find?_eq_none.mpr fun s hs =>
      hnew s ((List.takeWhile_sublist (!·.isAfter ⟨start, width, n⟩)).subset hs)
    refine ⟨⟨start, width, n⟩, ?_, rfl⟩
    rw [hinsert, insert, List.find?_append, hbefore, List.find?_cons, hself]
    rfl

theorem length_add {h h' : StemHints Float} {axis : Axis} {start width : Float} {n : ℕ}
    (hadd : h.add axis start width = some (n, h')) :
    (h'.onAxis axis).length ≤ (h.onAxis axis).length + 1 := by
  rcases add_cases hadd with ⟨_, _, _, _, rfl⟩ | ⟨-, -, -, hinsert, -⟩
  · exact Nat.le_succ _
  · rw [hinsert, (perm_insert _ _).length_eq, List.length_cons]

theorem other_of_add {h h' : StemHints Float} {axis : Axis} {start width : Float} {n : ℕ}
    (hadd : h.add axis start width = some (n, h')) :
    ∀ other ≠ axis, h'.onAxis other = h.onAxis other := by
  rcases add_cases hadd with ⟨_, _, _, _, rfl⟩ | ⟨-, -, -, -, hother⟩
  · exact fun _ _ => rfl
  · exact hother

/-- How adding a stem is answered. The number is that of a stem of the axis that matches. The list
of the axis keeps its stems and gets one more at most, and the other list stays as it is. Only a
stem that matches none is refused, when all numbers have been given out; then nothing changes. -/
structure IsAnswered (h : StemHints Float) (axis : Axis) (start width : Float) (answer : Option ℕ)
    (h' : StemHints Float) : Prop where
  matching : ∀ n, answer = some n → ∃ s ∈ h'.onAxis axis, s.number = n ∧ s.isAt start width = true
  kept : (h.onAxis axis).Sublist (h'.onAxis axis)
  length_le : (h'.onAxis axis).length ≤ (h.onAxis axis).length + 1
  other : ∀ other ≠ axis, h'.onAxis other = h.onAxis other
  refused : answer = none → h' = h
  refused_iff : answer = none ↔
    (∀ s ∈ h.onAxis axis, s.isAt start width = false) ∧ h.count = limit

theorem IsConsistent.isAnswered {h : StemHints Float} (hh : h.IsConsistent) {axis : Axis}
    {start width : Float} (hstart : start.isFinite = true) (hwidth : width.isFinite = true) :
    h.IsAnswered axis start width (h.obey (.add axis start width)).1
      (h.obey (.add axis start width)).2 := by
  have hrefused : h.add axis start width = none ↔
      (∀ s ∈ h.onAxis axis, s.isAt start width = false) ∧ h.count = limit := by
    rw [add_eq_none_iff, hh.counting.1, numberAt_eq_none, hh.counting.2.ge_iff_eq', eq_comm]
  rcases h.obey_cases axis start width with ⟨n, h', hadd, heq⟩ | ⟨hadd, heq⟩ <;> rw [heq]
  · refine ⟨fun k hk => ?_, sublist_add hadd axis, length_add hadd, other_of_add hadd, nofun, ?_⟩
    · obtain rfl := Option.some.inj hk
      obtain ⟨s, hfind, hnumber⟩ := find?_of_add hstart hwidth hadd
      have hat : s.isAt start width = true := by simpa using List.find?_some hfind
      exact ⟨s, List.mem_of_find?_eq_some hfind, hnumber, hat⟩
    · rw [← hrefused, hadd]
      exact iff_of_false nofun nofun
  · exact ⟨nofun, .refl _, Nat.le_succ _, fun _ _ => rfl, fun _ => rfl,
      iff_of_true rfl (hrefused.mp hadd)⟩

/-- After any requests the stems are consistent, and the next one is answered as it should be. -/
theorem consistent_after_requests {requests : List (Request Float)}
    (hfinite : ∀ request ∈ requests, request.IsFinite) :
    (obeyAll requests {}).IsConsistent ∧
      ∀ axis start width, start.isFinite = true → width.isFinite = true →
        (obeyAll requests {}).IsAnswered axis start width
          ((obeyAll requests {}).obey (.add axis start width)).1
          ((obeyAll requests {}).obey (.add axis start width)).2 :=
  have hconsistent := isConsistent_obeyAll hfinite
  ⟨hconsistent, fun _ _ _ hstart hwidth => hconsistent.isAnswered hstart hwidth⟩

/-- Two stems of one axis that are closer than the grid, with one of the other axis between them. -/
def closeRequests : List (Request Float) :=
  [.add .vertical 3 40, .clear, .add .horizontal 10 50, .add .vertical 10 50,
    .add .horizontal 9.99940625 50, .add .horizontal (-21) 21]

theorem consistent_after_closeRequests :
    (obeyAll closeRequests {}).IsConsistent ∧
      (obeyAll closeRequests {}).horizontal.map (·.number) = [3, 2, 0] ∧
      (obeyAll closeRequests {}).IsAnswered .horizontal 9.9996 50
        ((obeyAll closeRequests {}).obey (.add .horizontal 9.9996 50)).1
        ((obeyAll closeRequests {}).obey (.add .horizontal 9.9996 50)).2 := by
  have hfinite : ∀ request ∈ closeRequests, request.IsFinite := by decide +kernel
  obtain ⟨hconsistent, hanswered⟩ := consistent_after_requests hfinite
  exact ⟨hconsistent, by decide +kernel, hanswered _ _ _ (by decide +kernel) (by decide +kernel)⟩

end StemHints

end Letterform
