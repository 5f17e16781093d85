import Letterform.Outline.Numbering
import Mathlib

/-!
# Points that follow from their neighbours

In a closed sequence every point has two neighbours, so leaving out points is a recursion along the
sequence. A sequence that has been turned is turned back by its numbers.
-/

namespace Letterform.OutlinePoint

variable {α : Type}

section Scalar

variable [Scalar α]

def keep (before point after : OutlinePoint α) : List (OutlinePoint α) :=
  if isImplied before point after then [] else [point]

def keepAll (before : OutlinePoint α) : List (OutlinePoint α) → OutlinePoint α → List (OutlinePoint α)
  | [], _ => []
  | [p], after => keep before p after
  | p :: q :: rest, after => keep before p q ++ keepAll p (q :: rest) after

theorem keep_of_isImplied {before point after : OutlinePoint α}
    (h : isImplied before point after = true) : keep before point after = [] := if_pos h

theorem keep_of_isSome {point : OutlinePoint α} (h : point.number.isSome = true)
    (before after : OutlinePoint α) : keep before point after = [point] := by
  have hnone : point.number.isNone = false := by
    rw [← Option.not_isSome, h]
    rfl
  refine if_neg ?_
  rw [isImplied, hnone]
  simp

theorem flatMap_keep (before : OutlinePoint α) (points : List (OutlinePoint α))
    (after : OutlinePoint α) :
    ((before :: points.dropLast).zip (points.zip (points.tail ++ [after]))).flatMap
      (fun (b, p, a) => keep b p a) = keepAll before points after := by
  induction points generalizing before with
  | nil => rfl
  | cons p rest ih =>
    cases rest with
    | nil => simp [keepAll]
    | cons q rest =>
      have hrest := ih p
      rw [List.dropLast_cons_cons]
      simp only [List.tail_cons, List.cons_append, List.zip_cons_cons, List.flatMap_cons] at hrest ⊢
      rw [hrest]
      rfl

theorem filterMap_zipIdx_isImplied (rows : List (OutlinePoint α × OutlinePoint α × OutlinePoint α))
    (count n : ℕ) :
    ((rows.zipIdx n).filterMap fun ((before, point, after), i) =>
      if (true || (0 < i && i + 1 < count)) && isImplied before point after then none
      else some point) = rows.flatMap fun (before, point, after) => keep before point after := by
  induction rows generalizing n with
  | nil => rfl
  | cons row rows ih =>
    rw [List.zipIdx_cons, List.flatMap_cons, ← ih (n + 1)]
    by_cases himplied : isImplied row.1 row.2.1 row.2.2 = true <;> simp [keep, himplied]

/-- The points of a closed sequence are judged by their neighbours, the first and the last one by
each other. -/
theorem dropImplied_closed (p : OutlinePoint α) (rest : List (OutlinePoint α)) :
    dropImplied true (p :: rest) =
      keepAll ((p :: rest).getLast (List.cons_ne_nil p rest)) (p :: rest) p := by
  have hright : (p :: rest).rotateRight =
      (p :: rest).getLast (List.cons_ne_nil p rest) :: (p :: rest).dropLast := by
    cases rest with
    | nil => rfl
    | cons q rest =>
      have hlength : (p :: q :: rest).length - 1 % (p :: q :: rest).length =
          (p :: q :: rest).length - 1 := by
        rw [Nat.mod_eq_of_lt (by simp)]
      rw [List.rotateRight, if_neg (by simp)]
      dsimp only
      rw [hlength, ← List.dropLast_eq_take, List.drop_length_sub_one (List.cons_ne_nil p _)]
      rfl
  have hleft : (p :: rest).rotateLeft = (p :: rest).tail ++ [p] := by
    cases rest with
    | nil => rfl
    | cons q rest =>
      rw [List.rotateLeft, if_neg (by simp), Nat.mod_eq_of_lt (by simp)]
      rfl
  rw [← flatMap_keep, dropImplied, hright, hleft]
  exact filterMap_zipIdx_isImplied _ _ 0

end Scalar

-- ---------------------------------------------------------------------------
-- Turning back
-- ---------------------------------------------------------------------------

/-- The points have numbers, one after another from `n` on. -/
def IsNumbered (n : ℕ) (points : List (OutlinePoint α)) : Prop :=
  points.map (·.number) = (List.range' n points.length).map some

theorem isNumbered_append {n : ℕ} {first second : List (OutlinePoint α)} :
    IsNumbered n (first ++ second) ↔
      IsNumbered n first ∧ IsNumbered (n + first.length) second := by
  rw [IsNumbered, List.map_append, List.length_append, ← List.range'_append_1, List.map_append]
  constructor
  · intro h
    exact List.append_inj h (by simp)
  · rintro ⟨hfirst, hsecond⟩
    rw [hfirst, hsecond]

theorem IsNumbered.exists_of_mem {n : ℕ} {points : List (OutlinePoint α)} (h : IsNumbered n points)
    {p : OutlinePoint α} (hp : p ∈ points) :
    ∃ k, p.number = some k ∧ n ≤ k ∧ k < n + points.length := by
  have hmem : p.number ∈ points.map (·.number) := List.mem_map_of_mem hp
  rw [h] at hmem
  obtain ⟨k, hk, hnumber⟩ := List.mem_map.mp hmem
  rw [List.mem_range'_1] at hk
  exact ⟨k, hnumber.symm, hk⟩

theorem IsNumbered.isSome {n : ℕ} {points : List (OutlinePoint α)} (h : IsNumbered n points) :
    ∀ p ∈ points, p.number.isSome = true := by
  intro p hp
  obtain ⟨k, hk, -⟩ := h.exists_of_mem hp
  rw [hk]
  rfl

/-- A sequence that has been cut before a point other than the first one is put together again. -/
theorem turnToLowest_append {n : ℕ} {first second : List (OutlinePoint α)} (hfirst : first ≠ [])
    (h : IsNumbered n (first ++ second)) : turnToLowest (second ++ first) = first ++ second := by
  obtain ⟨hnumbers, hlater⟩ := isNumbered_append.mp h
  obtain ⟨p, rest, rfl⟩ := List.exists_cons_of_ne_nil hfirst
  have hp : p.number = some n := by
    rw [IsNumbered, List.length_cons, List.range'_succ, List.map_cons, List.map_cons] at hnumbers
    exact (List.cons.inj hnumbers).1
  have hmin : ((second ++ p :: rest).filterMap (·.number)).min? = some n := by
    rw [List.min?_eq_some_iff]
    constructor
    · exact List.mem_filterMap.mpr ⟨p, by simp, hp⟩
    · intro k hk
      obtain ⟨q, hq, hqk⟩ := List.mem_filterMap.mp hk
      have hmem : q ∈ p :: rest ++ second :=
        List.mem_append.mpr ((List.mem_append.mp hq).symm)
      obtain ⟨l, hl, hle, -⟩ := h.exists_of_mem hmem
      rw [hl] at hqk
      cases hqk
      exact hle
  have hindex : (second ++ p :: rest).findIdx (·.number == some n) = second.length := by
    rw [List.findIdx_eq (by simp)]
    constructor
    · simp [hp]
    · intro j hj
      obtain ⟨k, hk, hle, -⟩ := hlater.exists_of_mem (List.getElem_mem hj)
      rw [List.getElem_append_left hj, hk]
      simp only [List.length_cons] at hle
      simp only [beq_eq_false_iff_ne, ne_eq, Option.some.injEq]
      omega
  rw [turnToLowest, hmin]
  dsimp only
  rw [hindex]
  cases second with
  | nil => simp
  | cons q second =>
    have hlt : (q :: second).length < (q :: second ++ p :: rest).length := by simp
    rw [List.rotateLeft, if_neg (by simp), Nat.mod_eq_of_lt hlt]
    dsimp only
    rw [List.drop_left, List.take_left]

theorem turnToLowest_of_isNumbered {n : ℕ} {points : List (OutlinePoint α)} (hne : points ≠ [])
    (h : IsNumbered n points) : turnToLowest points = points := by
  rw [← List.append_nil points] at h
  have hturn := turnToLowest_append hne h
  rwa [List.nil_append, List.append_nil] at hturn

end Letterform.OutlinePoint
