import Letterform.Proofs.Record.Points
import Letterform.Proofs.Record.Writing
import Letterform.Record.Encoding

/-!
# The record of a glyph

The contours of a glyph are put one after another into a record, every point on the nearest whole
coordinates with the step from the point before it. A record depends on its glyph only through
these coordinates, and the glyph has as many contours as the record.
-/

namespace Letterform

variable {α : Type} [Scalar α]

-- ---------------------------------------------------------------------------
-- No contour is without points
-- ---------------------------------------------------------------------------

namespace OutlinePoint

theorem keep_of_offCurve {point : OutlinePoint α} (h : point.onCurve = false)
    (before after : OutlinePoint α) : keep before point after = [point] :=
  if_neg (by simp [isImplied, h])

theorem keep_after_onCurve {before : OutlinePoint α} (h : before.onCurve = true)
    (point after : OutlinePoint α) : keep before point after = [point] :=
  if_neg (by simp [isImplied, h])

theorem keepAll_ne_nil_of_last {points : List (OutlinePoint α)} (hne : points ≠ [])
    (h : (points.getLast hne).onCurve = false) (before after : OutlinePoint α) :
    keepAll before points after ≠ [] := by
  induction points generalizing before with
  | nil => contradiction
  | cons p rest ih =>
    cases rest with
    | nil =>
      have hp : p.onCurve = false := h
      rw [keepAll, keep_of_offCurve hp]
      exact List.cons_ne_nil p []
    | cons q rest =>
      rw [keepAll]
      exact List.append_ne_nil_of_right_ne_nil _ (ih (List.cons_ne_nil q rest) h p)

theorem keepAll_ne_nil_of_before {before : OutlinePoint α} (h : before.onCurve = true)
    (p : OutlinePoint α) (rest : List (OutlinePoint α)) (after : OutlinePoint α) :
    keepAll before (p :: rest) after ≠ [] := by
  cases rest with
  | nil =>
    rw [keepAll, keep_after_onCurve h]
    exact List.cons_ne_nil p []
  | cons q rest =>
    rw [keepAll, keep_after_onCurve h]
    exact List.cons_ne_nil p _

omit [Scalar α] in
theorem rotateLeft_ne_nil {points : List (OutlinePoint α)} (hne : points ≠ []) (i : ℕ) :
    points.rotateLeft i ≠ [] := by
  unfold List.rotateLeft
  dsimp only
  split_ifs
  · exact hne
  · intro h
    obtain ⟨hdrop, htake⟩ := List.append_eq_nil_iff.mp h
    rw [← List.take_append_drop (i % points.length) points, hdrop, htake] at hne
    exact hne rfl

omit [Scalar α] in
theorem rotateRight_ne_nil {points : List (OutlinePoint α)} (hne : points ≠ []) :
    points.rotateRight ≠ [] := by
  unfold List.rotateRight
  dsimp only
  split_ifs
  · exact hne
  · intro h
    obtain ⟨hdrop, htake⟩ := List.append_eq_nil_iff.mp h
    rw [← List.take_append_drop (points.length - 1 % points.length) points, hdrop, htake] at hne
    exact hne rfl

theorem dropImplied_ne_nil {points : List (OutlinePoint α)} (hne : points ≠ []) (closed : Bool) :
    dropImplied closed points ≠ [] := by
  obtain ⟨p, rest, rfl⟩ := List.exists_cons_of_ne_nil hne
  cases closed with
  | true =>
    rw [dropImplied_closed]
    cases hlast : ((p :: rest).getLast (List.cons_ne_nil p rest)).onCurve with
    | true => exact keepAll_ne_nil_of_before hlast p rest p
    | false => exact keepAll_ne_nil_of_last (List.cons_ne_nil p rest) hlast _ p
  | false =>
    -- the first point of an open contour always stays
    obtain ⟨before, _, hbefore⟩ := List.exists_cons_of_ne_nil
      (rotateRight_ne_nil (List.cons_ne_nil p rest))
    obtain ⟨after, _, hafter⟩ := List.exists_cons_of_ne_nil
      (rotateLeft_ne_nil (List.cons_ne_nil p rest) 1)
    rw [dropImplied, hbefore, hafter]
    exact List.ne_nil_of_mem (a := p) (List.mem_filterMap.mpr
      ⟨((before, p, after), 0), List.mem_cons_self, by simp⟩)

omit [Scalar α] in
theorem turnToLowest_ne_nil {points : List (OutlinePoint α)} (hne : points ≠ []) :
    turnToLowest points ≠ [] := by
  unfold turnToLowest
  split
  · exact hne
  · exact rotateLeft_ne_nil hne _

end OutlinePoint

theorem Figure.outlinePoints_ne_nil (f : Figure α) (c : Contour) : f.outlinePoints c ≠ [] := by
  have hne : (f.contourKnots c).flatMap f.pointsFrom ≠ [] := by
    rw [contourKnots, List.flatMap_cons]
    refine List.append_ne_nil_of_left_ne_nil ?_ _
    unfold pointsFrom
    dsimp only
    split
    · exact List.cons_ne_nil _ _
    · split_ifs
      · exact List.cons_ne_nil _ _
      · split
        · exact List.cons_ne_nil _ _
        · exact List.cons_ne_nil _ _
  unfold outlinePoints
  dsimp only
  split_ifs
  · exact OutlinePoint.turnToLowest_ne_nil (OutlinePoint.dropImplied_ne_nil hne _)
  · exact OutlinePoint.dropImplied_ne_nil hne _

-- ---------------------------------------------------------------------------
-- Points and ends
-- ---------------------------------------------------------------------------

namespace OutlinePoint

def place (p : OutlinePoint α) : ℤ × ℤ :=
  (Scalar.toInt32 (Scalar.roundUp p.position.x), Scalar.toInt32 (Scalar.roundUp p.position.y))

def trace (p : OutlinePoint α) : (ℤ × ℤ) × Bool := (p.place, p.onCurve)

end OutlinePoint

namespace RecordPoint

def place (p : RecordPoint) : ℤ × ℤ := (p.x, p.y)

def trace (p : RecordPoint) : (ℤ × ℤ) × Bool := (p.place, p.onCurve)

def IsWritable (p : RecordPoint) : Prop :=
  Record.IsWord p.x ∧ Record.IsWord p.y ∧ Record.IsWord p.dx ∧ Record.IsWord p.dy

end RecordPoint

namespace SimpleRecord

open Record

theorem isWord_iff {n : ℤ} : isWord n = true ↔ IsWord n := by
  rw [isWord, IsWord, Bool.and_eq_true, decide_eq_true_iff, decide_eq_true_iff]
  omega

/-- The point of a record with given traces and the steps to it. -/
def stepped (before : ℤ × ℤ) (trace : (ℤ × ℤ) × Bool) : RecordPoint where
  x := trace.1.1
  y := trace.1.2
  dx := trace.1.1 - before.1
  dy := trace.1.2 - before.2
  onCurve := trace.2

def steppedAll (before : ℤ × ℤ) : List ((ℤ × ℤ) × Bool) → List RecordPoint
  | [] => []
  | trace :: rest => stepped before trace :: steppedAll trace.1 rest

@[simp] theorem length_steppedAll (before : ℤ × ℤ) (traces : List ((ℤ × ℤ) × Bool)) :
    (steppedAll before traces).length = traces.length := by
  induction traces generalizing before with
  | nil => rfl
  | cons trace rest ih => rw [steppedAll, List.length_cons, List.length_cons, ih]

theorem map_trace_steppedAll (before : ℤ × ℤ) (traces : List ((ℤ × ℤ) × Bool)) :
    (steppedAll before traces).map RecordPoint.trace = traces := by
  induction traces generalizing before with
  | nil => rfl
  | cons trace rest ih =>
    rw [steppedAll, List.map_cons, ih]
    rfl

theorem sums_steppedAll (before : ℤ × ℤ) (traces : List ((ℤ × ℤ) × Bool)) :
    sums before.1 ((steppedAll before traces).map (·.dx)) = (steppedAll before traces).map (·.x) ∧
      sums before.2 ((steppedAll before traces).map (·.dy)) =
        (steppedAll before traces).map (·.y) := by
  induction traces generalizing before with
  | nil => exact ⟨rfl, rfl⟩
  | cons trace rest ih =>
    obtain ⟨hx, hy⟩ := ih trace.1
    have hx' : before.1 + (stepped before trace).dx = trace.1.1 := add_sub_cancel _ _
    have hy' : before.2 + (stepped before trace).dy = trace.1.2 := add_sub_cancel _ _
    simp only [steppedAll, List.map_cons, sums, hx', hy', hx, hy]
    exact ⟨rfl, rfl⟩

def newest : List RecordPoint → ℤ × ℤ
  | [] => (0, 0)
  | p :: _ => p.place

theorem word_ok {n m : ℤ} (h : (word n : Except (EncodeError α) ℤ) = .ok m) : m = n ∧ IsWord n := by
  unfold word at h
  split_ifs at h with hn
  cases h
  exact ⟨rfl, isWord_iff.mp hn⟩

theorem pointAfter_ok {before : ℤ × ℤ} {p : OutlinePoint α} {q : RecordPoint}
    (h : pointAfter before p = .ok q) : q = stepped before p.trace ∧ q.IsWritable := by
  obtain ⟨x, hx, h⟩ := bind_ok.mp h
  obtain ⟨y, hy, h⟩ := bind_ok.mp h
  obtain ⟨dx, hdx, h⟩ := bind_ok.mp h
  obtain ⟨dy, hdy, h⟩ := bind_ok.mp h
  cases h
  obtain ⟨rfl, hwx⟩ := word_ok hx
  obtain ⟨rfl, hwy⟩ := word_ok hy
  obtain ⟨rfl, hwdx⟩ := word_ok hdx
  obtain ⟨rfl, hwdy⟩ := word_ok hdy
  exact ⟨rfl, hwx, hwy, hwdx, hwdy⟩

theorem pointAfter_congr {p p' : OutlinePoint α} (h : p.trace = p'.trace) (before : ℤ × ℤ) :
    pointAfter before p = pointAfter before p' := by
  obtain ⟨hplace, honCurve⟩ := Prod.mk.inj h
  obtain ⟨hx, hy⟩ := Prod.mk.inj hplace
  rw [pointAfter, pointAfter, hx, hy, honCurve]

theorem addContour_cons (points : List RecordPoint) (p : OutlinePoint α)
    (rest : List (OutlinePoint α)) :
    addContour points (p :: rest) =
      (pointAfter (newest points) p).bind fun q => addContour (q :: points) rest := by
  rw [addContour, List.foldlM_cons]
  cases points with
  | nil =>
    show (pointAfter (newest []) p >>= fun q => pure [q]) >>= _ = _
    cases pointAfter (newest []) p <;> rfl
  | cons r points =>
    show (pointAfter (newest (r :: points)) p >>= fun q => pure (q :: r :: points)) >>= _ = _
    cases pointAfter (newest (r :: points)) p <;> rfl

theorem addContour_congr {contour contour' : List (OutlinePoint α)}
    (h : contour.map (·.trace) = contour'.map (·.trace)) (points : List RecordPoint) :
    addContour points contour = addContour points contour' := by
  induction contour generalizing contour' points with
  | nil => rw [List.map_eq_nil_iff.mp h.symm]
  | cons p rest ih =>
    obtain ⟨p', rest', rfl, hp, hrest⟩ := List.map_eq_cons_iff.mp h.symm
    rw [addContour_cons, addContour_cons, pointAfter_congr hp]
    congr 1
    funext q
    exact ih hrest.symm (q :: points)

theorem steppedAll_append (points : List RecordPoint) (first second : List ((ℤ × ℤ) × Bool)) :
    steppedAll (newest points) (first ++ second) = steppedAll (newest points) first ++
      steppedAll (newest ((steppedAll (newest points) first).reverse ++ points)) second := by
  induction first generalizing points with
  | nil => rfl
  | cons trace rest ih =>
    have hrest := ih (stepped (newest points) trace :: points)
    rw [List.cons_append, steppedAll, steppedAll, List.cons_append, List.reverse_cons,
      List.append_assoc, List.singleton_append]
    exact congrArg _ hrest

theorem addContour_ok {points points' : List RecordPoint} {contour : List (OutlinePoint α)}
    (h : addContour points contour = .ok points') :
    points' = (steppedAll (newest points) (contour.map (·.trace))).reverse ++ points ∧
      ∀ q ∈ steppedAll (newest points) (contour.map (·.trace)), q.IsWritable := by
  induction contour generalizing points with
  | nil =>
    cases h
    exact ⟨rfl, nofun⟩
  | cons p rest ih =>
    rw [addContour_cons] at h
    obtain ⟨q, hq, h⟩ := bind_ok.mp h
    obtain ⟨rfl, hwritable⟩ := pointAfter_ok hq
    obtain ⟨rfl, hrest⟩ := ih h
    rw [List.map_cons, steppedAll, List.reverse_cons, List.append_assoc, List.singleton_append]
    exact ⟨rfl, List.forall_mem_cons.mpr ⟨hwritable, hrest⟩⟩

def endsFrom (start : ℕ) : List (List (OutlinePoint α)) → List ℕ
  | [] => []
  | contour :: rest => (start + contour.length - 1) :: endsFrom (start + contour.length) rest

theorem addContours_cons {contour : List (OutlinePoint α)} (hne : contour ≠ [])
    (points : List RecordPoint) (ends : List ℕ) (rest : List (List (OutlinePoint α))) :
    addContours points ends (contour :: rest) = (addContour points contour).bind fun points =>
      if 0xffff < pointCount ends + contour.length
      then .error (.tooManyPoints (pointCount ends + contour.length))
      else addContours points ((pointCount ends + contour.length - 1) :: ends) rest := by
  obtain ⟨p, tail, rfl⟩ := List.exists_cons_of_ne_nil hne
  rw [addContours.eq_def]
  dsimp only
  cases addContour points (p :: tail) with
  | error e => rfl
  | ok points =>
    simp only [bind, Except.bind]
    split_ifs
    · rfl
    · rfl

theorem addContours_ok {points points' : List RecordPoint} {ends ends' : List ℕ}
    {contours : List (List (OutlinePoint α))} (hne : ∀ contour ∈ contours, contour ≠ [])
    (h : addContours points ends contours = .ok (points', ends')) :
    points' = (steppedAll (newest points) (contours.flatten.map (·.trace))).reverse ++ points ∧
      (∀ q ∈ steppedAll (newest points) (contours.flatten.map (·.trace)), q.IsWritable) ∧
      ends' = (endsFrom (pointCount ends) contours).reverse ++ ends ∧
      (contours ≠ [] → pointCount ends + contours.flatten.length ≤ 0xffff) := by
  induction contours generalizing points ends with
  | nil =>
    cases h
    exact ⟨rfl, nofun, rfl, fun h => absurd rfl h⟩
  | cons contour rest ih =>
    obtain ⟨hcontour, hrest⟩ := List.forall_mem_cons.mp hne
    rw [addContours_cons hcontour] at h
    obtain ⟨points1, hadd, h⟩ := bind_ok.mp h
    obtain ⟨rfl, hwritable⟩ := addContour_ok hadd
    split_ifs at h with hcount
    · obtain ⟨rfl, hrestWritable, rfl, hrestCount⟩ := ih hrest h
      have hlast : pointCount ((pointCount ends + contour.length - 1) :: ends) =
          pointCount ends + contour.length := by
        have := List.length_pos_iff.mpr hcontour
        rw [pointCount]
        omega
      rw [hlast] at hrestCount ⊢
      refine ⟨?_, ?_, ?_, fun _ => ?_⟩
      · rw [List.flatten_cons, List.map_append, steppedAll_append, List.reverse_append,
          List.append_assoc]
      · rw [List.flatten_cons, List.map_append, steppedAll_append]
        exact List.forall_mem_append.mpr ⟨hwritable, hrestWritable⟩
      · rw [endsFrom, List.reverse_cons, List.append_assoc, List.singleton_append]
      · rw [List.flatten_cons, List.length_append]
        by_cases hnil : rest = []
        · rw [hnil, List.flatten_nil, List.length_nil]
          omega
        · have := hrestCount hnil
          omega

-- ---------------------------------------------------------------------------
-- Ends
-- ---------------------------------------------------------------------------

omit [Scalar α] in
theorem areEnds_endsFrom {previous start : ℕ} {contours : List (List (OutlinePoint α))}
    (hne : ∀ contour ∈ contours, contour ≠ []) (hle : previous ≤ start)
    (hcount : contours ≠ [] → start + contours.flatten.length ≤ 0xffff) :
    AreEnds previous (endsFrom start contours) := by
  induction contours generalizing previous start with
  | nil => exact areEnds_nil previous
  | cons contour rest ih =>
    obtain ⟨hcontour, hrest⟩ := List.forall_mem_cons.mp hne
    have hpos := List.length_pos_iff.mpr hcontour
    have htotal := hcount (List.cons_ne_nil contour rest)
    rw [List.flatten_cons, List.length_append] at htotal
    exact areEnds_cons.mpr ⟨by omega, by omega, ih hrest (by omega) fun _ => by omega⟩

omit [Scalar α] in
theorem pointCount_endsFrom {start : ℕ} {contours : List (List (OutlinePoint α))}
    (hne : ∀ contour ∈ contours, contour ≠ []) (hcontours : contours ≠ []) :
    Record.pointCount (endsFrom start contours) = start + contours.flatten.length := by
  induction contours generalizing start with
  | nil => contradiction
  | cons contour rest ih =>
    obtain ⟨hcontour, hrest⟩ := List.forall_mem_cons.mp hne
    have hpos := List.length_pos_iff.mpr hcontour
    rw [endsFrom, List.flatten_cons, List.length_append]
    rcases rest with _ | ⟨next, rest⟩
    · rw [endsFrom, Record.pointCount, List.getLast?_singleton, List.flatten_nil, List.length_nil]
      dsimp only
      omega
    · have hnext : Record.pointCount (endsFrom (start + contour.length) (next :: rest)) = _ :=
        ih hrest (List.cons_ne_nil next rest)
      rw [endsFrom] at hnext
      rw [endsFrom, pointCount_cons_cons, hnext, Nat.add_assoc]

theorem cutContours_endsFrom {points : List (OutlinePoint α)} {start : ℕ}
    {contours : List (List (OutlinePoint α))} (hne : ∀ contour ∈ contours, contour ≠ [])
    (h : points.map (·.trace) = contours.flatten.map (·.trace)) :
    (cutContours points start (endsFrom start contours)).map (·.map (·.trace)) =
      contours.map (·.map (·.trace)) := by
  induction contours generalizing points start with
  | nil => rfl
  | cons contour rest ih =>
    obtain ⟨hcontour, hrest⟩ := List.forall_mem_cons.mp hne
    have hpos := List.length_pos_iff.mpr hcontour
    have hlast : start + contour.length - 1 + 1 = start + contour.length := by omega
    have hlength : (contour.map (·.trace)).length = contour.length := List.length_map _
    rw [List.flatten_cons, List.map_append] at h
    have hdrop : (points.drop contour.length).map (·.trace) = rest.flatten.map (·.trace) := by
      rw [List.map_drop, h, ← hlength, List.drop_left]
    have htake : (points.take contour.length).map (·.trace) = contour.map (·.trace) := by
      rw [List.map_take, h, ← hlength, List.take_left]
    rw [endsFrom, cutContours, List.map_cons, List.map_cons, hlast, Nat.add_sub_cancel_left, htake,
      ih hrest hdrop]

-- ---------------------------------------------------------------------------
-- Glyphs
-- ---------------------------------------------------------------------------

theorem outlines_ne_nil (g : Glyph α) : ∀ contour ∈ g.outlines, contour ≠ [] := by
  intro contour hcontour
  obtain ⟨⟨f, c⟩, -, rfl⟩ := List.mem_map.mp hcontour
  exact f.outlinePoints_ne_nil c

theorem newest_nil : newest [] = (0, 0) := rfl

theorem ofGlyph_ok {g : Glyph α} {r : SimpleRecord} (h : ofGlyph g = .ok (some r)) :
    r.points = steppedAll (0, 0) (g.outlines.flatten.map (·.trace)) ∧
      r.ends = endsFrom 0 g.outlines ∧ r.instructions = g.instructions ∧
      r.overlaps = g.overlaps ∧ g.outlines ≠ [] ∧ r.Fits := by
  obtain ⟨⟨points, ends⟩, hadd, h⟩ := bind_ok.mp h
  obtain ⟨hpoints, hwritable, hends, hcount⟩ := addContours_ok (outlines_ne_nil g) hadd
  rw [newest_nil, List.append_nil] at hpoints
  rw [newest_nil] at hwritable
  rw [List.append_nil] at hends
  dsimp only at h
  by_cases hempty : points.isEmpty = true
  · rw [if_pos hempty] at h
    cases h
  by_cases hcontours : 0x7fff < ends.length
  · rw [if_neg hempty, if_pos hcontours] at h
    cases h
  by_cases hinstructions : 0xffff < g.instructions.length
  · rw [if_neg hempty, if_neg hcontours, if_pos hinstructions] at h
    cases h
  rw [if_neg hempty, if_neg hcontours, if_neg hinstructions] at h
  cases h
  have hne : g.outlines ≠ [] := by
    intro hnil
    rw [hpoints, hnil] at hempty
    exact hempty rfl
  have htotal := hcount hne
  have hstart : pointCount [] = 0 := rfl
  rw [hstart] at hends htotal
  rw [hpoints, hends, List.reverse_reverse, List.reverse_reverse]
  refine ⟨rfl, rfl, rfl, rfl, hne, ⟨hwritable, ?_, ?_, ?_, ?_⟩⟩
  · rw [hends] at hcontours
    simp at hcontours ⊢
    omega
  · exact areEnds_endsFrom (outlines_ne_nil g) le_rfl hcount
  · dsimp only
    rw [pointCount_endsFrom (outlines_ne_nil g) hne, length_steppedAll, List.length_map,
      Nat.zero_add]
  · exact Nat.le_of_not_lt hinstructions

theorem addContours_congr {contours contours' : List (List (OutlinePoint α))}
    (h : contours.map (·.map (·.trace)) = contours'.map (·.map (·.trace)))
    (points : List RecordPoint) (ends : List ℕ) :
    addContours points ends contours = addContours points ends contours' := by
  induction contours generalizing contours' points ends with
  | nil => rw [List.map_eq_nil_iff.mp h.symm]
  | cons contour rest ih =>
    obtain ⟨contour', rest', rfl, hcontour, hrest⟩ := List.map_eq_cons_iff.mp h.symm
    have hlength := congrArg List.length hcontour
    rw [List.length_map, List.length_map] at hlength
    rcases contour with _ | ⟨p, tail⟩
    · obtain rfl := List.length_eq_zero_iff.mp hlength
      exact ih hrest.symm points ends
    · have hne : contour' ≠ [] := by
        rintro rfl
        cases hlength
      rw [addContours_cons (List.cons_ne_nil p tail), addContours_cons hne,
        addContour_congr hcontour.symm, hlength]
      congr 1
      funext points
      split_ifs
      · rfl
      · exact ih hrest.symm _ _

/-- A record keeps nothing of a glyph but the traces of its points, its instructions and its mark
of overlaps. -/
theorem ofGlyph_congr {g g' : Glyph α}
    (h : g.outlines.map (·.map (·.trace)) = g'.outlines.map (·.map (·.trace)))
    (hinstructions : g.instructions = g'.instructions) (hoverlaps : g.overlaps = g'.overlaps) :
    ofGlyph g = ofGlyph g' := by
  have hadd := addContours_congr h [] []
  unfold Glyph.outlines at hadd
  rw [ofGlyph, ofGlyph, hadd, hinstructions, hoverlaps]

end SimpleRecord

end Letterform
