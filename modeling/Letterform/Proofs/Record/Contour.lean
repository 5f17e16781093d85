import Letterform.Proofs.Outline.Loop
import Letterform.Proofs.Outline.Numbering
import Letterform.Record.Decoding

/-!
# The points of a contour come back

A contour of a record starts on the curve, with a point in between where the record has two control
points in a row. What was added in between is left out again, and the points come back in their
order in the record.
-/

namespace Letterform.Record

variable {α : Type} [Scalar α]

open OutlinePoint (IsNumbered keep keepAll dropImplied turnToLowest turnToLowest_of_isNumbered)

-- ---------------------------------------------------------------------------
-- Points in between
-- ---------------------------------------------------------------------------

def implied (p q : OutlinePoint α) : OutlinePoint α :=
  { position := p.position.midpoint q.position, onCurve := true }

/-- Puts a knot between every two control points in a row. -/
def weave : List (OutlinePoint α) → List (OutlinePoint α)
  | [] => []
  | [p] => [p]
  | p :: q :: rest =>
    if p.onCurve || q.onCurve then p :: weave (q :: rest)
    else p :: implied p q :: weave (q :: rest)

theorem weave_of_onCurve {p : OutlinePoint α} (hp : p.onCurve = true)
    (rest : List (OutlinePoint α)) : weave (p :: rest) = p :: weave rest := by
  cases rest with
  | nil => rfl
  | cons q rest => rw [weave, hp, Bool.true_or, if_pos rfl]

theorem exists_weave (p : OutlinePoint α) (rest : List (OutlinePoint α)) :
    ∃ tail, weave (p :: rest) = p :: tail := by
  cases rest with
  | nil => exact ⟨[], rfl⟩
  | cons q rest =>
    rw [weave]
    split_ifs
    · exact ⟨_, rfl⟩
    · exact ⟨_, rfl⟩

theorem getLast?_weave (points : List (OutlinePoint α)) :
    (weave points).getLast? = points.getLast? := by
  induction points with
  | nil => rfl
  | cons p rest ih =>
    cases rest with
    | nil => rfl
    | cons q rest =>
      obtain ⟨tail, htail⟩ := exists_weave q rest
      rw [htail] at ih
      rw [weave, htail, List.getLast?_cons_cons, ← ih]
      split_ifs
      · rfl
      · rfl

/-- Points that are close to themselves, and the points halfway between them. -/
structure AreNear (points : List (OutlinePoint α)) : Prop where
  self : ∀ p ∈ points, p.position.isClose p.position = true
  between : ∀ p ∈ points, ∀ q ∈ points,
    (p.position.midpoint q.position).isClose (p.position.midpoint q.position) = true

theorem isImplied_implied {p q : OutlinePoint α} (hp : p.onCurve = false) (hq : q.onCurve = false)
    (h : (p.position.midpoint q.position).isClose (p.position.midpoint q.position) = true) :
    OutlinePoint.isImplied p (implied p q) q = true := by
  simp [OutlinePoint.isImplied, implied, hp, hq, h]

theorem keepAll_cons {p : OutlinePoint α} (hp : p.number.isSome = true)
    (before : OutlinePoint α) (rest : List (OutlinePoint α)) (after : OutlinePoint α) :
    keepAll before (p :: rest) after = p :: keepAll p rest after := by
  cases rest with
  | nil => exact OutlinePoint.keep_of_isSome hp before after
  | cons q rest =>
    rw [keepAll, OutlinePoint.keep_of_isSome hp]
    rfl

theorem keepAll_weave {points : List (OutlinePoint α)}
    (hnumbers : ∀ p ∈ points, p.number.isSome = true) (hnear : AreNear points)
    (before after : OutlinePoint α) : keepAll before (weave points) after = points := by
  induction points generalizing before with
  | nil => rfl
  | cons p rest ih =>
    obtain ⟨hp, hrest⟩ := List.forall_mem_cons.mp hnumbers
    cases rest with
    | nil => exact keepAll_cons hp before [] after
    | cons q rest =>
      have hnear' : AreNear (q :: rest) :=
        ⟨fun r hr => hnear.self r (List.mem_cons_of_mem p hr), fun r hr s hs =>
          hnear.between r (List.mem_cons_of_mem p hr) s (List.mem_cons_of_mem p hs)⟩
      rw [weave]
      split_ifs with hon
      · rw [keepAll_cons hp, ih hrest hnear']
      · rw [Bool.not_eq_true, Bool.or_eq_false_iff] at hon
        obtain ⟨tail, htail⟩ := exists_weave q rest
        have hdrop : keep p (implied p q) q = [] :=
          OutlinePoint.keep_of_isImplied (isImplied_implied hon.1 hon.2
            (hnear.between p (by simp) q (by simp)))
        have hih := ih hrest hnear' (implied p q)
        rw [htail] at hih
        rw [keepAll_cons hp, htail, keepAll, hdrop, List.nil_append, hih]

-- ---------------------------------------------------------------------------
-- Drawing
-- ---------------------------------------------------------------------------

/-- The rows that are drawn to some points, from a knot and perhaps a control point on, and the
knot where they end. -/
def rowsFrom (knot : OutlinePoint α) (control : Option (OutlinePoint α)) :
    List (OutlinePoint α) → List (Row α) × OutlinePoint α
  | [] => ([], knot)
  | p :: rest =>
    match control with
    | none =>
      if p.onCurve then
        let (rows, stop) := rowsFrom p none rest
        (⟨knot, none⟩ :: rows, stop)
      else rowsFrom knot (some p) rest
    | some c =>
      let next := if p.onCurve then p else implied c p
      let (rows, stop) := rowsFrom next (if p.onCurve then none else some p) rest
      (⟨knot, some c⟩ :: rows, stop)

theorem isTrail_drawPoints {f : Figure α} {rows : List (Row α)} {knot : OutlinePoint α}
    {b : Builder α} (h : b.IsTrail f rows knot) (control : Option (OutlinePoint α))
    (points : List (OutlinePoint α)) :
    (drawPoints b control points).IsTrail f (rows ++ (rowsFrom knot control points).1)
      (rowsFrom knot control points).2 := by
  induction points generalizing rows knot control b with
  | nil =>
    rw [rowsFrom, List.append_nil]
    exact h
  | cons p rest ih =>
    cases control with
    | none =>
      cases hp : p.onCurve with
      | true =>
        have hrest := ih (h.arc none p) none
        rw [List.append_assoc] at hrest
        simp only [drawPoints, rowsFrom, hp, if_true]
        exact hrest
      | false =>
        simp only [drawPoints, rowsFrom, hp, Bool.false_eq_true, if_false]
        exact ih h (some p)
    | some c =>
      cases hp : p.onCurve with
      | true =>
        have hrest := ih (h.arc (some c) p) none
        rw [List.append_assoc] at hrest
        simp only [drawPoints, rowsFrom, hp, if_true]
        exact hrest
      | false =>
        have hrest := ih (h.arc (some c) (implied c p)) (some p)
        rw [List.append_assoc] at hrest
        simp only [drawPoints, rowsFrom, hp, Bool.false_eq_true, if_false]
        exact hrest

theorem head?_rowsFrom (knot : OutlinePoint α) (control : Option (OutlinePoint α))
    (rest : List (OutlinePoint α)) {stop : OutlinePoint α} (hstop : stop.onCurve = true) :
    (rowsFrom knot control (rest ++ [stop])).1.head?.map (·.knot) = some knot := by
  induction rest generalizing control with
  | nil => cases control <;> simp [rowsFrom, hstop]
  | cons p rest ih =>
    cases control with
    | none =>
      rw [List.cons_append, rowsFrom]
      split_ifs
      · rfl
      · exact ih (some p)
    | some c => rfl

theorem stop_rowsFrom (knot : OutlinePoint α) (control : Option (OutlinePoint α))
    (rest : List (OutlinePoint α)) {stop : OutlinePoint α} (hstop : stop.onCurve = true) :
    (rowsFrom knot control (rest ++ [stop])).2 = stop := by
  induction rest generalizing knot control with
  | nil => cases control <;> simp [rowsFrom, hstop]
  | cons p rest ih =>
    cases control with
    | none =>
      rw [List.cons_append, rowsFrom]
      split_ifs
      · exact ih p none
      · exact ih knot (some p)
    | some c => exact ih _ _

theorem points_rowsFrom {knot : OutlinePoint α} (hknot : knot.onCurve = true)
    (rest : List (OutlinePoint α)) {stop : OutlinePoint α} (hstop : stop.onCurve = true) :
    (rowsFrom knot none (rest ++ [stop])).1.flatMap Row.points = knot :: weave rest ∧
      ∀ c, c.onCurve = false →
        (rowsFrom knot (some c) (rest ++ [stop])).1.flatMap Row.points =
          knot :: weave (c :: rest) := by
  have hself : ({ knot with onCurve := true } : OutlinePoint α) = knot := by rw [← hknot]
  induction rest generalizing knot with
  | nil =>
    refine ⟨?_, fun c hc => ?_⟩
    · simp [rowsFrom, hstop, Row.points, hself, weave]
    · have hcself : ({ c with onCurve := false } : OutlinePoint α) = c := by rw [← hc]
      simp [rowsFrom, hstop, Row.points, hself, hcself, weave]
  | cons p rest ih =>
    cases hp : p.onCurve with
    | true =>
      obtain ⟨hnone, -⟩ := ih hp (by rw [← hp])
      refine ⟨?_, fun c hc => ?_⟩
      · simp only [List.cons_append, rowsFrom, hp, if_true, List.flatMap_cons, hnone]
        rw [weave_of_onCurve hp]
        simp [Row.points, hself]
      · have hcself : ({ c with onCurve := false } : OutlinePoint α) = c := by rw [← hc]
        simp only [List.cons_append, rowsFrom, hp, if_true, List.flatMap_cons, hnone]
        rw [weave, hp, Bool.or_true, if_pos rfl, weave_of_onCurve hp]
        simp [Row.points, hself, hcself]
    | false =>
      refine ⟨?_, fun c hc => ?_⟩
      · simp only [List.cons_append, rowsFrom, hp, Bool.false_eq_true, if_false]
        exact (ih hknot hself).2 p hp
      · have hcself : ({ c with onCurve := false } : OutlinePoint α) = c := by rw [← hc]
        have himplied : (implied c p).onCurve = true := rfl
        have hnext := (ih himplied rfl).2 p hp
        simp only [List.cons_append, rowsFrom, hp, Bool.false_eq_true, if_false, List.flatMap_cons,
          hnext]
        rw [weave, hp, hc, Bool.or_false, if_neg Bool.false_ne_true]
        simp [Row.points, hself, hcself]

-- ---------------------------------------------------------------------------
-- Contours
-- ---------------------------------------------------------------------------

/-- The points of a contour that has been drawn. A single one is always on the curve. -/
def shown : List (OutlinePoint α) → List (OutlinePoint α)
  | [p] => [{ p with onCurve := true }]
  | points => points

variable {b : Builder α} {points : List (OutlinePoint α)} {n : ℕ}

/-- Drawing from a knot along some points and back to it leaves a trail that ends where it
started. -/
theorem isTrail_contour (hpath : b.path = none) (horder : b.order = .quadratic)
    {p : OutlinePoint α} (hp : p.onCurve = true) (rest : List (OutlinePoint α)) :
    (drawPoints ((b.moveTo p.position).modifyCurrent ({ · with number := p.number })) none
        (rest ++ [{ p with number := none }])).IsTrail b.figure
      (rowsFrom p none (rest ++ [{ p with number := none }])).1 { p with number := none } ∧
    (rowsFrom p none (rest ++ [{ p with number := none }])).1.head?.map (·.knot) = some p := by
  have hback : ({ p with number := none } : OutlinePoint α).onCurve = true := hp
  have htrail := isTrail_drawPoints (Builder.isTrail_moveTo hpath horder p) none
    (rest ++ [{ p with number := none }])
  rw [List.nil_append, stop_rowsFrom p none rest hback] at htrail
  exact ⟨htrail, head?_rowsFrom p none rest hback⟩

/-- Drawing from a knot along some points and back to it shows them with knots in between. -/
theorem adds_drawPoints (hpath : b.path = none) (horder : b.order = .quadratic)
    {p : OutlinePoint α} (hp : p.onCurve = true)
    (hclose : p.position.isClose p.position = true) (rest : List (OutlinePoint α)) :
    (drawPoints ((b.moveTo p.position).modifyCurrent ({ · with number := p.number })) none
      (rest ++ [{ p with number := none }])).close.Adds b.figure
        (turnToLowest (dropImplied true (p :: weave rest))) := by
  obtain ⟨htrail, hhead⟩ := isTrail_contour hpath horder hp rest
  have hback : ({ p with number := none } : OutlinePoint α).onCurve = true := hp
  rw [← (points_rowsFrom hp rest hback).1]
  refine htrail.close ?_ hclose
  obtain ⟨row, hrow, hknot⟩ := Option.map_eq_some_iff.mp hhead
  rw [hrow, Option.map_some, hknot]

theorem AreNear.of_subset {points' : List (OutlinePoint α)} (h : AreNear points)
    (hsub : points' ⊆ points) : AreNear points' :=
  ⟨fun p hp => h.self p (hsub hp), fun p hp q hq => h.between p (hsub hp) q (hsub hq)⟩

theorem exists_fromKnot (hany : points.any (·.onCurve) = true) :
    ∃ first p rest, points = first ++ p :: rest ∧ p.onCurve = true ∧
      fromKnot points = p :: (rest ++ first) := by
  have hlt : points.findIdx (·.onCurve) < points.length := by
    obtain ⟨p, hp, hon⟩ := List.any_eq_true.mp hany
    exact List.findIdx_lt_length_of_exists ⟨p, hp, hon⟩
  have hon := List.findIdx_getElem (w := hlt)
  have hcut := List.drop_eq_getElem_cons hlt
  refine ⟨points.take (points.findIdx (·.onCurve)), points[points.findIdx (·.onCurve)],
    points.drop (points.findIdx (·.onCurve) + 1), ?_, hon, ?_⟩
  · rw [← hcut, List.take_append_drop]
  · rw [fromKnot, if_pos hany, List.rotateLeft, ← List.cons_append, ← hcut]
    split_ifs with hone
    · have hzero : points.findIdx (·.onCurve) = 0 := by omega
      rw [hzero, List.drop_zero, List.take_zero, List.append_nil]
    · rw [Nat.mod_eq_of_lt hlt]

/-- A contour without a point on the curve is drawn from between its last and its first point. -/
theorem fromKnot_of_offCurve (hany : points.any (·.onCurve) = false) (hne : points ≠ []) :
    fromKnot points = implied (points.getLast hne) (points.head hne) :: points := by
  rw [fromKnot, hany, if_neg Bool.false_ne_true, List.getLast?_eq_some_getLast hne,
    List.head?_eq_some_head hne]
  rfl

theorem shows_onCurve {first rest : List (OutlinePoint α)} {p : OutlinePoint α}
    (hnumbered : IsNumbered n (first ++ p :: rest)) (hnear : AreNear (first ++ p :: rest))
    (hp : p.onCurve = true) :
    turnToLowest (dropImplied true (p :: weave (rest ++ first))) = first ++ p :: rest := by
  have hperm : (p :: rest ++ first).Perm (first ++ p :: rest) := List.perm_append_comm
  have hsub : p :: (rest ++ first) ⊆ first ++ p :: rest := hperm.subset
  have hkeep (before after : OutlinePoint α) :=
    keepAll_weave (fun q hq => hnumbered.isSome q (hsub hq)) (hnear.of_subset hsub) before after
  rw [weave_of_onCurve hp] at hkeep
  rw [OutlinePoint.dropImplied_closed, hkeep]
  rcases List.eq_nil_or_concat first with rfl | ⟨_, _, rfl⟩
  · rw [List.append_nil]
    exact turnToLowest_of_isNumbered (List.cons_ne_nil p rest) hnumbered
  · exact OutlinePoint.turnToLowest_append (by simp) hnumbered

/-- Control points that were drawn from between the last and the first of them are shown as they
are. -/
theorem shows_offCurve (hnumbered : IsNumbered n points) (hnear : AreNear points)
    (hany : points.any (·.onCurve) = false) (hne : points ≠ []) :
    turnToLowest (dropImplied true (implied (points.getLast hne) (points.head hne) ::
      weave points)) = points := by
  have hoff (p : OutlinePoint α) (hp : p ∈ points) : p.onCurve = false := by
    have := List.any_eq_false.mp hany p hp
    simpa using this
  have hlast := List.getLast_mem hne
  have hhead := List.head_mem hne
  obtain ⟨tail, htail⟩ : ∃ tail, weave points = points.head hne :: tail := by
    obtain ⟨p, rest, rfl⟩ := List.exists_cons_of_ne_nil hne
    exact exists_weave p rest
  have hbefore : (implied (points.getLast hne) (points.head hne) :: weave points).getLast
      (List.cons_ne_nil _ _) = points.getLast hne := by
    have hlast? := getLast?_weave points
    rw [List.getLast?_eq_some_getLast hne] at hlast?
    rw [List.getLast_eq_iff_getLast?_eq_some, htail, List.getLast?_cons_cons, ← htail, hlast?]
  have hdrop : keep (points.getLast hne) (implied (points.getLast hne) (points.head hne))
      (points.head hne) = [] :=
    OutlinePoint.keep_of_isImplied (isImplied_implied (hoff _ hlast) (hoff _ hhead)
      (hnear.between _ hlast _ hhead))
  have hkeep := keepAll_weave hnumbered.isSome hnear
    (implied (points.getLast hne) (points.head hne))
    (implied (points.getLast hne) (points.head hne))
  rw [OutlinePoint.dropImplied_closed, hbefore]
  rw [htail] at hkeep ⊢
  rw [keepAll, hdrop, List.nil_append, hkeep]
  exact turnToLowest_of_isNumbered hne hnumbered

theorem drawContour_cons_cons (b : Builder α) (p q : OutlinePoint α) (rest : List (OutlinePoint α)) :
    drawContour b (p :: q :: rest) = match fromKnot (p :: q :: rest) with
      | [] => b
      | p :: rest => (drawPoints ((b.moveTo p.position).modifyCurrent
          ({ · with number := p.number })) none (rest ++ [{ p with number := none }])).close := rfl

theorem adds_drawContour (hpath : b.path = none) (horder : b.order = .quadratic)
    (hnumbered : IsNumbered n points) (hnear : AreNear points) (hne : points ≠ []) :
    (drawContour b points).Adds b.figure (shown points) := by
  rcases points with _ | ⟨p, _ | ⟨q, rest⟩⟩
  · exact absurd rfl hne
  · exact (Builder.isTrail_moveTo hpath horder p).close_single
  · rw [drawContour_cons_cons]
    show Builder.Adds b.figure (p :: q :: rest) _
    generalize p :: q :: rest = points at hnumbered hnear hne
    cases hany : points.any (·.onCurve) with
    | true =>
      obtain ⟨first, p, rest, rfl, hp, hfrom⟩ := exists_fromKnot hany
      have hadds := adds_drawPoints hpath horder hp (hnear.self p (by simp)) (rest ++ first)
      rw [shows_onCurve hnumbered hnear hp] at hadds
      rw [hfrom]
      exact hadds
    | false =>
      have hclose := hnear.between _ (List.getLast_mem hne) _ (List.head_mem hne)
      have hadds := adds_drawPoints hpath horder (rfl : (implied (points.getLast hne)
        (points.head hne)).onCurve = true) hclose points
      rw [shows_offCurve hnumbered hnear hany hne] at hadds
      rw [fromKnot_of_offCurve hany hne]
      exact hadds

end Letterform.Record
