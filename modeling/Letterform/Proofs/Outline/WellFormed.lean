import Letterform.Outline.Draw
import Letterform.Proofs.Outline.Figure

/-!
# Whatever is drawn is a well-formed figure

Commands of a pen may come in any order. The knots of a contour stand next to each other in the
table, in the order of the path, and contours stand one behind the other. A segment joins two
knots that know it, and the knots at the ends of a contour are joined with each other or with
nothing. Each command keeps this, so it holds of every figure that is drawn.
-/

namespace Letterform

variable {α : Type} [Scalar α]

-- ---------------------------------------------------------------------------
-- Segments
-- ---------------------------------------------------------------------------

namespace Figure

/-- A segment leads from one knot to another, both know it, and it is a line if there is no control
point beside it. -/
structure Joins (f : Figure α) (s i j : ℕ) : Prop where
  segment_lt : s < f.segments.size
  start_lt : i < f.knots.size
  stop_lt : j < f.knots.size
  start : (f.segment s).start = i
  stop : (f.segment s).stop = j
  segmentOut : (f.knot i).segmentOut = some s
  segmentIn : (f.knot j).segmentIn = some s
  isLine : (f.segment s).isLine = ((f.knot i).controlOut.isNone && (f.knot j).controlIn.isNone)

variable {f f' : Figure α} {s i j : ℕ}

theorem Joins.congr (h : f.Joins s i j) (hsize : s < f'.segments.size)
    (hi : i < f'.knots.size) (hj : j < f'.knots.size) (hsegment : f'.segment s = f.segment s)
    (hout : (f'.knot i).segmentOut = (f.knot i).segmentOut)
    (hcontrolOut : (f'.knot i).controlOut = (f.knot i).controlOut)
    (hin : (f'.knot j).segmentIn = (f.knot j).segmentIn)
    (hcontrolIn : (f'.knot j).controlIn = (f.knot j).controlIn) : f'.Joins s i j where
  segment_lt := hsize
  start_lt := hi
  stop_lt := hj
  start := by rw [hsegment, h.start]
  stop := by rw [hsegment, h.stop]
  segmentOut := by rw [hout, h.segmentOut]
  segmentIn := by rw [hin, h.segmentIn]
  isLine := by rw [hsegment, hcontrolOut, hcontrolIn, h.isLine]

theorem Joins.addKnot (h : f.Joins s i j) (k : Knot α) : (f.addKnot k).Joins s i j := by
  have hknot {i : ℕ} (hi : i < f.knots.size) : (f.addKnot k).knot i = f.knot i := by
    rw [knot_addKnot, if_neg hi.ne]
  have hi := h.start_lt
  have hj := h.stop_lt
  refine h.congr h.segment_lt (by rw [size_addKnot]; omega) (by rw [size_addKnot]; omega) rfl ?_ ?_
    ?_ ?_
  · rw [hknot hi]
  · rw [hknot hi]
  · rw [hknot hj]
  · rw [hknot hj]

theorem Joins.modifyKnot (h : f.Joins s i j) (k : ℕ) (change : Knot α → Knot α)
    (hout : i = k → (change (f.knot i)).segmentOut = (f.knot i).segmentOut ∧
      (change (f.knot i)).controlOut = (f.knot i).controlOut)
    (hin : j = k → (change (f.knot j)).segmentIn = (f.knot j).segmentIn ∧
      (change (f.knot j)).controlIn = (f.knot j).controlIn) :
    (f.modifyKnot k change).Joins s i j := by
  have hi := h.start_lt
  have hj := h.stop_lt
  have hknot {i : ℕ} (hi : i < f.knots.size) :
      (f.modifyKnot k change).knot i = if i = k then change (f.knot i) else f.knot i := by
    rw [knot_modifyKnot]
    simp [hi, eq_comm]
  refine h.congr h.segment_lt (by rwa [size_modifyKnot]) (by rwa [size_modifyKnot]) rfl ?_ ?_ ?_ ?_
  all_goals first | rw [hknot hi] | rw [hknot hj]
  · split_ifs with hik
    · exact (hout hik).1
    · rfl
  · split_ifs with hik
    · exact (hout hik).2
    · rfl
  · split_ifs with hjk
    · exact (hin hjk).1
    · rfl
  · split_ifs with hjk
    · exact (hin hjk).2
    · rfl

section Connect

variable {a b : ℕ} (hne : a ≠ b) (ha : a < f.knots.size) (hb : b < f.knots.size)

include hne ha hb

/-- A new segment does not touch those that are there if none leaves where it does and none arrives
where it does. -/
theorem Joins.connect (h : f.Joins s i j) (hout : (f.knot a).segmentOut = none)
    (hin : (f.knot b).segmentIn = none) (order : CurveOrder) :
    (f.connect a b order).Joins s i j := by
  have hia : i ≠ a := by
    rintro rfl
    rw [h.segmentOut] at hout
    cases hout
  have hjb : j ≠ b := by
    rintro rfl
    rw [h.segmentIn] at hin
    cases hin
  have hi := h.start_lt
  have hj := h.stop_lt
  have hs := h.segment_lt
  have hsegments : (f.connect a b order).segments.size = f.segments.size + 1 := by
    rw [segments_connect, Array.size_push]
  have hknot := knot_connect f a b order hne ha hb
  refine h.congr (by omega) (by rwa [size_connect]) (by rwa [size_connect]) ?_ ?_ ?_ ?_ ?_
  · rw [segment_of_push (segments_connect f a b order), if_neg hs.ne]
  · rw [hknot, if_neg hia]
    split_ifs with hib
    · rw [hib]
    · rfl
  · rw [hknot, if_neg hia]
    split_ifs with hib
    · rw [hib]
    · rfl
  · rw [hknot, if_neg hjb]
    split_ifs with hja
    · rw [hja]
    · rfl
  · rw [hknot, if_neg hjb]
    split_ifs with hja
    · rw [hja]
    · rfl

theorem joins_connect (order : CurveOrder) : (f.connect a b order).Joins f.segments.size a b := by
  have hknot := knot_connect f a b order hne ha hb
  have hsegment : (f.connect a b order).segment f.segments.size = _ :=
    (segment_of_push (segments_connect f a b order) _).trans (if_pos rfl)
  have hb' : (f.connect a b order).knot b =
      { f.knot b with segmentIn := some f.segments.size } := by
    rw [hknot, if_pos rfl]
  have ha' : (f.connect a b order).knot a =
      { f.knot a with segmentOut := some f.segments.size } := by
    rw [hknot, if_neg hne, if_pos rfl]
  refine ⟨?_, by rwa [size_connect], by rwa [size_connect], ?_, ?_, ?_, ?_, ?_⟩
  · rw [segments_connect, Array.size_push]
    omega
  · rw [hsegment]
  · rw [hsegment]
  · rw [ha']
  · rw [hb']
  · rw [hsegment, ha', hb']

end Connect

section JoinLast

variable {first last segment before : ℕ} (hsize : last + 1 = f.knots.size) (hfirst : first < last)
  (hout : (f.knot last).segmentOut = none) (hsegment : f.Joins segment before last)

include hsize hfirst hout hsegment

theorem Joins.joinLast (h : f.Joins s i j) (hin : (f.knot first).segmentIn = none)
    (hj : j ≠ last) : (Builder.joinLast f first (f.knot last) segment).Joins s i j := by
  have hne : s ≠ segment := by
    rintro rfl
    exact hj (h.stop.symm.trans hsegment.stop)
  have hi : i ≠ last := by
    rintro rfl
    rw [h.segmentOut] at hout
    cases hout
  have hj' : j ≠ first := by
    rintro rfl
    rw [h.segmentIn] at hin
    cases hin
  have hi_lt := h.start_lt
  have hj_lt := h.stop_lt
  have hs := h.segment_lt
  have hknots : (Builder.joinLast f first (f.knot last) segment).knots.size = last := by
    simp [Builder.joinLast, ← hsize]
  have hsegments : (Builder.joinLast f first (f.knot last) segment).segments.size =
      f.segments.size := by
    simp [Builder.joinLast]
  have hknot (i : ℕ) (hi : i + 1 < f.knots.size) :=
    Builder.knot_joinLast f first (f.knot last) segment i (by omega) hi
  obtain ⟨_, _, _, hk⟩ := Builder.knot_joinLast_leaving f first (f.knot last) segment i (by omega)
    (by omega)
  refine h.congr (by omega) (by omega) (by omega) ?_ ?_ ?_ ?_ ?_
  · rw [Builder.segment_joinLast f first _ segment s hs, if_neg hne]
  · rw [hk]
  · rw [hk]
  · rw [hknot j (by omega), if_neg hj']
  · rw [hknot j (by omega), if_neg hj']

theorem joins_joinLast :
    (Builder.joinLast f first (f.knot last) segment).Joins segment before first := by
  have hbefore : before ≠ last := by
    rintro rfl
    rw [hsegment.segmentOut] at hout
    cases hout
  have hlt := hsegment.start_lt
  have hs := hsegment.segment_lt
  have hknots : (Builder.joinLast f first (f.knot last) segment).knots.size = last := by
    simp [Builder.joinLast, ← hsize]
  have hsegments : (Builder.joinLast f first (f.knot last) segment).segments.size =
      f.segments.size := by
    simp [Builder.joinLast]
  have hseg := Builder.segment_joinLast f first (f.knot last) segment segment hs
  have hfirst' := Builder.knot_joinLast f first (f.knot last) segment first (by omega) (by omega)
  rw [if_pos rfl] at hseg hfirst'
  obtain ⟨_, _, _, hk⟩ := Builder.knot_joinLast_leaving f first (f.knot last) segment before
    (by omega) (by omega)
  refine ⟨by omega, by omega, by omega, ?_, ?_, ?_, ?_, ?_⟩
  · rw [hseg]
    exact hsegment.start
  · rw [hseg]
  · rw [hk, hsegment.segmentOut]
  · rw [hfirst']
  · rw [hseg, hk, hfirst']
    exact hsegment.isLine

end JoinLast

-- ---------------------------------------------------------------------------
-- Contours
-- ---------------------------------------------------------------------------

/-- Knots that stand next to each other in the table are joined. -/
structure IsPath (f : Figure α) (first last : ℕ) : Prop where
  le : first ≤ last
  lt : last < f.knots.size
  joins : ∀ i, first ≤ i → i < last → ∃ s, f.Joins s i (i + 1)

/-- No segment arrives at the first of some knots, and none leaves the last. -/
structure IsLoose (f : Figure α) (first last : ℕ) : Prop where
  segmentIn : (f.knot first).segmentIn = none
  segmentOut : (f.knot last).segmentOut = none

/-- The knots of a contour in the table: it is either open or closed by a segment. -/
structure IsTraced (f : Figure α) (c : Contour) : Prop where
  path : f.IsPath c.first c.last
  ends : f.IsLoose c.first c.last ∨ ∃ s, f.Joins s c.last c.first

/-- Contours of which each begins behind the one before it, from a place in the table to another. -/
def Tiles : ℕ → List Contour → ℕ → Prop
  | start, [], stop => start = stop
  | start, c :: rest, stop => c.first = start ∧ c.first ≤ c.last ∧ Tiles (c.last + 1) rest stop

omit [Scalar α] in
theorem tiles_concat {start stop : ℕ} {contours : List Contour} {c : Contour} :
    Tiles start (contours ++ [c]) stop ↔
      Tiles start contours c.first ∧ c.first ≤ c.last ∧ c.last + 1 = stop := by
  induction contours generalizing start with
  | nil => simp [Tiles, eq_comm]
  | cons d rest ih => simp [Tiles, ih, and_assoc]

omit [Scalar α] in
theorem Tiles.lt {start stop : ℕ} {contours : List Contour} (h : Tiles start contours stop) :
    start ≤ stop ∧ ∀ c ∈ contours, c.last < stop := by
  induction contours generalizing start with
  | nil => exact ⟨h.le, nofun⟩
  | cons c rest ih =>
    obtain ⟨hfirst, hle, hrest⟩ := h
    obtain ⟨hstop, hlast⟩ := ih hrest
    exact ⟨by omega, List.forall_mem_cons.mpr ⟨by omega, hlast⟩⟩

/-- What is known of the knots below a place in the table stays true. -/
structure Keeps (n : ℕ) (f f' : Figure α) : Prop where
  joins : ∀ {s i j}, i < n → j < n → f.Joins s i j → f'.Joins s i j
  segmentIn : ∀ i < n, (f'.knot i).segmentIn = (f.knot i).segmentIn
  segmentOut : ∀ i < n, (f'.knot i).segmentOut = (f.knot i).segmentOut

theorem IsPath.keeps {n first last : ℕ} (h : f.IsPath first last) (hlast : last < n)
    (hkeeps : Keeps n f f') (hsize : n ≤ f'.knots.size) : f'.IsPath first last := by
  refine ⟨h.le, by omega, fun i hi hlt => ?_⟩
  obtain ⟨s, hs⟩ := h.joins i hi hlt
  exact ⟨s, hkeeps.joins (by omega) (by omega) hs⟩

theorem IsTraced.keeps {n : ℕ} {c : Contour} (h : f.IsTraced c) (hlast : c.last < n)
    (hkeeps : Keeps n f f') (hsize : n ≤ f'.knots.size) : f'.IsTraced c := by
  have hle := h.path.le
  refine ⟨h.path.keeps hlast hkeeps hsize, ?_⟩
  rcases h.ends with hloose | ⟨s, hs⟩
  · refine .inl ⟨?_, ?_⟩
    · rw [hkeeps.segmentIn _ (by omega), hloose.segmentIn]
    · rw [hkeeps.segmentOut _ hlast, hloose.segmentOut]
  · exact .inr ⟨s, hkeeps.joins hlast (by omega) hs⟩

-- ---------------------------------------------------------------------------
-- Figures that are being drawn
-- ---------------------------------------------------------------------------

/-- Contours cover the knots up to a place in the table, and every segment joins two knots. -/
structure IsTiled (f : Figure α) (stop : ℕ) : Prop where
  traced : ∀ c ∈ f.contours.toList, f.IsTraced c
  joined : ∀ s < f.segments.size, ∃ i j, f.Joins s i j
  tiles : Tiles 0 f.contours.toList stop

/-- The knots behind all contours are those of a contour that is being drawn. -/
structure IsDrawing (f : Figure α) (first last : ℕ) : Prop where
  tiled : f.IsTiled first
  size : last + 1 = f.knots.size
  path : f.IsPath first last
  loose : f.IsLoose first last

theorem IsTiled.keeps {stop : ℕ} (h : f.IsTiled stop) (hkeeps : Keeps stop f f')
    (hcontours : f'.contours = f.contours) (hsize : stop ≤ f'.knots.size)
    (hjoined : ∀ s < f'.segments.size, ∃ i j, f'.Joins s i j) : f'.IsTiled stop := by
  refine ⟨fun c hc => ?_, hjoined, by rw [hcontours]; exact h.tiles⟩
  rw [hcontours] at hc
  exact (h.traced c hc).keeps (h.tiles.lt.2 c hc) hkeeps hsize

theorem Joins.addContour (h : f.Joins s i j) (c : Contour) : (f.addContour c).Joins s i j :=
  ⟨h.1, h.2, h.3, h.4, h.5, h.6, h.7, h.8⟩

theorem IsTiled.addContour {c : Contour} (h : f.IsTiled c.first) (hc : f.IsTraced c) :
    (f.addContour c).IsTiled (c.last + 1) := by
  have hkeeps : Keeps f.knots.size f (f.addContour c) :=
    ⟨fun _ _ hs => hs.addContour c, fun _ _ => rfl, fun _ _ => rfl⟩
  have hcontours : (f.addContour c).contours.toList = f.contours.toList ++ [c] :=
    Array.toList_push
  refine ⟨?_, fun s hs => ?_, ?_⟩
  · rw [hcontours]
    intro d hd
    rcases List.mem_append.mp hd with hd | hd
    · exact (h.traced d hd).keeps (h.traced d hd).path.lt hkeeps le_rfl
    · rw [List.mem_singleton.mp hd]
      exact hc.keeps hc.path.lt hkeeps le_rfl
  · obtain ⟨i, j, hs⟩ := h.joined s hs
    exact ⟨i, j, hs.addContour c⟩
  · rw [hcontours]
    exact tiles_concat.mpr ⟨h.tiles, hc.path.le, rfl⟩

section Steps

variable {first last : ℕ} {k : Knot α}

theorem IsTiled.addKnot (h : f.IsTiled f.knots.size) (hin : k.segmentIn = none)
    (hout : k.segmentOut = none) : (f.addKnot k).IsDrawing f.knots.size f.knots.size := by
  have hknot : (f.addKnot k).knot f.knots.size = k := by
    rw [knot_addKnot, if_pos rfl]
  have hkeeps : Keeps f.knots.size f (f.addKnot k) := by
    refine ⟨fun _ _ hs => hs.addKnot k, fun i hi => ?_, fun i hi => ?_⟩
    · rw [knot_addKnot, if_neg hi.ne]
    · rw [knot_addKnot, if_neg hi.ne]
  refine ⟨h.keeps hkeeps rfl (by simp) fun s hs => ?_, (size_addKnot f k).symm,
    ⟨le_rfl, by simp, by omega⟩, ⟨by rw [hknot, hin], by rw [hknot, hout]⟩⟩
  obtain ⟨i, j, hs⟩ := h.joined s hs
  exact ⟨i, j, hs.addKnot k⟩

theorem IsDrawing.modifyKnot (h : f.IsDrawing first last) {n : ℕ} {change : Knot α → Knot α}
    (hin : ∀ k, (change k).segmentIn = k.segmentIn)
    (hout : ∀ k, (change k).segmentOut = k.segmentOut)
    (hjoins : ∀ {s i j}, f.Joins s i j → (f.modifyKnot n change).Joins s i j) :
    (f.modifyKnot n change).IsDrawing first last := by
  have hknot (i : ℕ) : ((f.modifyKnot n change).knot i).segmentIn = (f.knot i).segmentIn ∧
      ((f.modifyKnot n change).knot i).segmentOut = (f.knot i).segmentOut := by
    rw [knot_modifyKnot]
    split_ifs
    · exact ⟨hin _, hout _⟩
    · exact ⟨rfl, rfl⟩
  have hkeeps (m : ℕ) : Keeps m f (f.modifyKnot n change) :=
    ⟨fun _ _ hs => hjoins hs, fun i _ => (hknot i).1, fun i _ => (hknot i).2⟩
  have hsize := size_modifyKnot f n change
  have hle := h.path.le
  have hlast := h.size
  refine ⟨h.tiled.keeps (hkeeps _) rfl (by omega) fun s hs => ?_, by omega,
    h.path.keeps (by omega) (hkeeps (last + 1)) (by omega),
    ⟨by rw [(hknot _).1, h.loose.segmentIn], by rw [(hknot _).2, h.loose.segmentOut]⟩⟩
  obtain ⟨i, j, hs⟩ := h.tiled.joined s hs
  exact ⟨i, j, hjoins hs⟩

theorem IsDrawing.modifyLast (h : f.IsDrawing first last) {change : Knot α → Knot α}
    (hin : ∀ k, (change k).segmentIn = k.segmentIn ∧ (change k).controlIn = k.controlIn)
    (hout : ∀ k, (change k).segmentOut = k.segmentOut) :
    (f.modifyKnot last change).IsDrawing first last := by
  refine h.modifyKnot (fun k => (hin k).1) hout fun hs => ?_
  refine hs.modifyKnot last change (fun hi => ?_) fun _ => hin _
  have := hs.segmentOut
  rw [hi, h.loose.segmentOut] at this
  cases this

theorem IsDrawing.modifyFirst (h : f.IsDrawing first last) {change : Knot α → Knot α}
    (hin : ∀ k, (change k).segmentIn = k.segmentIn)
    (hout : ∀ k, (change k).segmentOut = k.segmentOut ∧ (change k).controlOut = k.controlOut) :
    (f.modifyKnot first change).IsDrawing first last := by
  refine h.modifyKnot hin (fun k => (hout k).1) fun hs => ?_
  refine hs.modifyKnot first change (fun _ => hout _) fun hj => ?_
  have := hs.segmentIn
  rw [hj, h.loose.segmentIn] at this
  cases this

theorem IsDrawing.extend (h : f.IsDrawing first last) (hin : k.segmentIn = none)
    (hout : k.segmentOut = none) (order : CurveOrder) :
    ((f.addKnot k).connect last f.knots.size order).IsDrawing first f.knots.size := by
  have hle := h.path.le
  have hlast := h.size
  have hadded := size_addKnot f k
  have hne : last ≠ f.knots.size := by omega
  have hknot := knot_connect (f.addKnot k) last f.knots.size order hne (by omega) (by omega)
  have hnew : (f.addKnot k).knot f.knots.size = k := by rw [knot_addKnot, if_pos rfl]
  have hold (i : ℕ) (hi : i < f.knots.size) : (f.addKnot k).knot i = f.knot i := by
    rw [knot_addKnot, if_neg hi.ne]
  have hjoins {s i j : ℕ} (hs : f.Joins s i j) :
      ((f.addKnot k).connect last f.knots.size order).Joins s i j :=
    (hs.addKnot k).connect hne (by omega) (by omega)
      (by rw [hold _ (by omega), h.loose.segmentOut]) (by rw [hnew, hin]) order
  have hjoin : ((f.addKnot k).connect last f.knots.size order).Joins f.segments.size last
      f.knots.size := joins_connect hne (by omega) (by omega) order
  have hsize : ((f.addKnot k).connect last f.knots.size order).knots.size = f.knots.size + 1 := by
    rw [size_connect, hadded]
  have hkeeps : Keeps first f ((f.addKnot k).connect last f.knots.size order) := by
    refine ⟨fun _ _ hs => hjoins hs, fun i hi => ?_, fun i hi => ?_⟩
    · rw [hknot, if_neg (by omega), if_neg (by omega), hold i (by omega)]
    · rw [hknot, if_neg (by omega), if_neg (by omega), hold i (by omega)]
  refine ⟨h.tiled.keeps hkeeps rfl (by omega) fun s hs => ?_, by omega,
    ⟨by omega, by omega, fun i hi hlt => ?_⟩, ⟨?_, ?_⟩⟩
  · rw [segments_connect, Array.size_push, segments_addKnot] at hs
    by_cases hlt : s < f.segments.size
    · obtain ⟨i, j, hs⟩ := h.tiled.joined s hlt
      exact ⟨i, j, hjoins hs⟩
    · obtain rfl : s = f.segments.size := by omega
      exact ⟨last, f.knots.size, hjoin⟩
  · by_cases hi' : i < last
    · obtain ⟨s, hs⟩ := h.path.joins i hi hi'
      exact ⟨s, hjoins hs⟩
    · obtain rfl : i = last := by omega
      rw [hlast]
      exact ⟨_, hjoin⟩
  · rw [hknot, if_neg (by omega)]
    split_ifs with hfirst
    · rw [hold _ (by omega), ← hfirst, h.loose.segmentIn]
    · rw [hold _ (by omega), h.loose.segmentIn]
  · rw [hknot, if_pos rfl, hnew, hout]

theorem IsDrawing.leave (h : f.IsDrawing first last) :
    (f.addContour { first, last }).IsTiled (f.addContour { first, last }).knots.size := by
  have hsize : (f.addContour { first, last }).knots.size = last + 1 := h.size.symm
  rw [hsize]
  exact h.tiled.addContour ⟨h.path, .inl h.loose⟩

theorem IsDrawing.connect (h : f.IsDrawing first last) (hne : first ≠ last) (order : CurveOrder) :
    (f.connect last first order).IsTiled first ∧
      (f.connect last first order).IsTraced { first, last } := by
  have hle := h.path.le
  have hlast := h.size
  have hknot := knot_connect f last first order hne.symm (by omega) (by omega)
  have hjoins {s i j : ℕ} (hs : f.Joins s i j) : (f.connect last first order).Joins s i j :=
    hs.connect hne.symm (by omega) (by omega) h.loose.segmentOut h.loose.segmentIn order
  have hjoin : (f.connect last first order).Joins f.segments.size last first :=
    joins_connect hne.symm (by omega) (by omega) order
  have hsize := size_connect f last first order
  have hkeeps : Keeps first f (f.connect last first order) := by
    refine ⟨fun _ _ hs => hjoins hs, fun i hi => ?_, fun i hi => ?_⟩
    · rw [hknot, if_neg (by omega), if_neg (by omega)]
    · rw [hknot, if_neg (by omega), if_neg (by omega)]
  refine ⟨h.tiled.keeps hkeeps rfl (by omega) fun s hs => ?_,
    ⟨⟨hle, by dsimp only; omega, fun i hi hlt => ?_⟩, .inr ⟨_, hjoin⟩⟩⟩
  · rw [segments_connect, Array.size_push] at hs
    by_cases hlt : s < f.segments.size
    · obtain ⟨i, j, hs⟩ := h.tiled.joined s hlt
      exact ⟨i, j, hjoins hs⟩
    · obtain rfl : s = f.segments.size := by omega
      exact ⟨last, first, hjoin⟩
  · obtain ⟨s, hs⟩ := h.path.joins i hi hlt
    exact ⟨s, hjoins hs⟩

theorem IsDrawing.close (h : f.IsDrawing first last) (hne : first ≠ last) (order : CurveOrder) :
    let g := (((f.modifyKnot last ({ · with controlOut := none })).modifyKnot first
      ({ · with controlIn := none })).connect last first order).addContour { first, last }
    g.IsTiled g.knots.size := by
  intro g
  have hlast : (f.modifyKnot last ({ · with controlOut := none })).IsDrawing first last :=
    h.modifyLast (fun _ => ⟨rfl, rfl⟩) fun _ => rfl
  have hcleared : ((f.modifyKnot last ({ · with controlOut := none })).modifyKnot first
      ({ · with controlIn := none })).IsDrawing first last :=
    hlast.modifyFirst (fun _ => rfl) fun _ => ⟨rfl, rfl⟩
  obtain ⟨htiled, htraced⟩ := hcleared.connect hne order
  have hsize : g.knots.size = last + 1 := by
    simp [g, Figure.addContour, h.size]
  rw [hsize]
  exact htiled.addContour htraced

theorem IsDrawing.join (h : f.IsDrawing first last) (hne : first ≠ last) :
    ∃ segment, (f.knot last).segmentIn = some segment ∧
      let g := (Builder.joinLast f first (f.knot last) segment).addContour
        { first, last := (f.segment segment).start }
      g.IsTiled g.knots.size := by
  have hle := h.path.le
  have hlast := h.size
  obtain ⟨segment, hsegment⟩ := h.path.joins (last - 1) (by omega) (by omega)
  rw [Nat.sub_add_cancel (by omega)] at hsegment
  refine ⟨segment, hsegment.segmentIn, ?_⟩
  intro g
  let g' := Builder.joinLast f first (f.knot last) segment
  have hjoins {s i j : ℕ} (hs : f.Joins s i j) (hj : j ≠ last) : g'.Joins s i j :=
    Joins.joinLast hlast (by omega) h.loose.segmentOut hsegment hs h.loose.segmentIn hj
  have hjoin : g'.Joins segment (last - 1) first :=
    joins_joinLast hlast (by omega) h.loose.segmentOut hsegment
  have hknots : g'.knots.size = last := by
    simp [g', Builder.joinLast, ← hlast]
  have hsegments : g'.segments.size = f.segments.size := by
    simp [g', Builder.joinLast]
  have hkeeps : Keeps first f g' := by
    refine ⟨fun _ hj hs => hjoins hs (by omega), fun i hi => ?_, fun i hi => ?_⟩
    · rw [Builder.knot_joinLast f first _ segment i (by omega) (by omega), if_neg hi.ne]
    · rw [Builder.knot_joinLast f first _ segment i (by omega) (by omega), if_neg hi.ne]
  have htiled : g'.IsTiled first := by
    refine h.tiled.keeps hkeeps rfl (by omega) fun s hs => ?_
    obtain ⟨i, j, hs⟩ := h.tiled.joined s (hsegments ▸ hs)
    by_cases hj : j = last
    · have hin := hs.segmentIn
      rw [hj, hsegment.segmentIn] at hin
      cases hin
      exact ⟨_, _, hjoin⟩
    · exact ⟨i, j, hjoins hs hj⟩
  have htraced : g'.IsTraced { first, last := last - 1 } := by
    refine ⟨⟨by dsimp only; omega, by dsimp only; omega, fun i hi hlt => ?_⟩, .inr ⟨_, hjoin⟩⟩
    dsimp only at hi hlt
    obtain ⟨s, hs⟩ := h.path.joins i hi (by omega)
    exact ⟨s, hjoins hs (by omega)⟩
  have hadded := htiled.addContour htraced
  have hsize : g.knots.size = last - 1 + 1 := by
    show g'.knots.size = _
    omega
  rw [hsize, show g = g'.addContour { first, last := last - 1 } by simp only [g, g', hsegment.start]]
  exact hadded

end Steps

-- ---------------------------------------------------------------------------
-- Finished figures
-- ---------------------------------------------------------------------------

/-- A figure in which every knot lies on one contour, once, and every segment and every link leads
where it should. A contour is closed if the segment that leaves its last knot arrives at its first
one, otherwise no segment leaves the last or arrives at the first. -/
structure IsWellFormed (f : Figure α) : Prop where
  knots : f.contours.toList.flatMap f.contourKnots = List.range f.knots.size
  first : ∀ c ∈ f.contours, (f.contourKnots c).head? = some c.first
  last : ∀ c ∈ f.contours, (f.contourKnots c).getLast? = some c.last
  segments : ∀ s < f.segments.size, ∃ i j, f.Joins s i j
  segmentOut : ∀ i < f.knots.size, ∀ s, (f.knot i).segmentOut = some s → ∃ j, f.Joins s i j
  segmentIn : ∀ j < f.knots.size, ∀ s, (f.knot j).segmentIn = some s → ∃ i, f.Joins s i j
  isClosed : ∀ c ∈ f.contours, f.isClosed c = true ↔ ∃ s, f.Joins s c.last c.first
  isOpen : ∀ c ∈ f.contours, f.isClosed c = false →
    (f.knot c.last).segmentOut = none ∧ (f.knot c.first).segmentIn = none

theorem Joins.following (h : f.Joins s i j) (first limit : ℕ) :
    f.following first (limit + 1) i = if j = first then [] else j :: f.following first limit j := by
  rw [Figure.following, h.segmentOut]
  dsimp only
  rw [h.stop]

theorem IsTraced.following {c : Contour} (h : f.IsTraced c) {count limit i : ℕ}
    (hfirst : c.first ≤ i) (hcount : i + count = c.last) (hlimit : count ≤ limit) :
    f.following c.first limit i = List.range' (i + 1) count := by
  induction count generalizing limit i with
  | zero =>
    cases limit with
    | zero => rfl
    | succ limit =>
      obtain rfl : i = c.last := by omega
      rcases h.ends with hloose | ⟨s, hs⟩
      · rw [Figure.following, hloose.segmentOut]
        rfl
      · rw [hs.following, if_pos rfl]
        rfl
  | succ count ih =>
    cases limit with
    | zero => omega
    | succ limit =>
      obtain ⟨s, hs⟩ := h.path.joins i hfirst (by omega)
      rw [hs.following, if_neg (by omega), ih (by omega) (by omega) (by omega), List.range'_succ]

theorem IsTraced.contourKnots {c : Contour} (h : f.IsTraced c) :
    f.contourKnots c = List.range' c.first (c.last + 1 - c.first) := by
  have hle := h.path.le
  have hlt := h.path.lt
  obtain ⟨n, hn⟩ : ∃ n, c.last = c.first + n := ⟨c.last - c.first, by omega⟩
  have hcount : c.last + 1 - c.first = n + 1 := by omega
  rw [Figure.contourKnots, h.following le_rfl hn.symm (by omega), hcount, List.range'_succ]

theorem IsTraced.isClosed_iff {c : Contour} (h : f.IsTraced c) :
    f.isClosed c = true ↔ ∃ s, f.Joins s c.last c.first := by
  rcases h.ends with hloose | ⟨s, hs⟩
  · rw [Figure.isClosed, hloose.segmentOut]
    refine ⟨nofun, fun ⟨s, hs⟩ => ?_⟩
    have := hs.segmentOut
    rw [hloose.segmentOut] at this
    cases this
  · rw [Figure.isClosed, hs.segmentOut]
    dsimp only
    rw [hs.stop]
    exact ⟨fun _ => ⟨s, hs⟩, fun _ => beq_self_eq_true c.first⟩

theorem IsTraced.segmentOut {c : Contour} (h : f.IsTraced c) (hfirst : c.first ≤ i)
    (hlast : i ≤ c.last) (hs : (f.knot i).segmentOut = some s) : ∃ j, f.Joins s i j := by
  obtain ⟨s', j, hjoin⟩ : ∃ s' j, f.Joins s' i j := by
    by_cases hlt : i < c.last
    · obtain ⟨s', hjoin⟩ := h.path.joins i hfirst hlt
      exact ⟨s', i + 1, hjoin⟩
    · obtain rfl : i = c.last := by omega
      rcases h.ends with hloose | ⟨s', hjoin⟩
      · rw [hloose.segmentOut] at hs
        cases hs
      · exact ⟨s', c.first, hjoin⟩
  rw [hjoin.segmentOut] at hs
  cases hs
  exact ⟨j, hjoin⟩

theorem IsTraced.segmentIn {c : Contour} (h : f.IsTraced c) (hfirst : c.first ≤ j)
    (hlast : j ≤ c.last) (hs : (f.knot j).segmentIn = some s) : ∃ i, f.Joins s i j := by
  obtain ⟨s', i, hjoin⟩ : ∃ s' i, f.Joins s' i j := by
    by_cases hlt : c.first < j
    · obtain ⟨s', hjoin⟩ := h.path.joins (j - 1) (by omega) (by omega)
      rw [Nat.sub_add_cancel (by omega)] at hjoin
      exact ⟨s', j - 1, hjoin⟩
    · obtain rfl : j = c.first := by omega
      rcases h.ends with hloose | ⟨s', hjoin⟩
      · rw [hloose.segmentIn] at hs
        cases hs
      · exact ⟨s', c.last, hjoin⟩
  rw [hjoin.segmentIn] at hs
  cases hs
  exact ⟨i, hjoin⟩

theorem flatMap_contourKnots {start stop : ℕ} {contours : List Contour}
    (htraced : ∀ c ∈ contours, f.IsTraced c) (htiles : Tiles start contours stop) :
    contours.flatMap f.contourKnots = List.range' start (stop - start) := by
  induction contours generalizing start with
  | nil =>
    obtain rfl : start = stop := htiles
    rw [Nat.sub_self]
    rfl
  | cons c rest ih =>
    obtain ⟨hc, hrest⟩ := List.forall_mem_cons.mp htraced
    obtain ⟨rfl, hle, htiles⟩ := htiles
    have hstop := htiles.lt.1
    have hnext : c.first + (c.last + 1 - c.first) = c.last + 1 := by omega
    have hcount : c.last + 1 - c.first + (stop - (c.last + 1)) = stop - c.first := by omega
    rw [List.flatMap_cons, hc.contourKnots, ih hrest htiles, ← hcount, ← List.range'_append_1, hnext]

theorem Tiles.exists_mem {start stop i : ℕ} {contours : List Contour}
    (h : Tiles start contours stop) (hi : start ≤ i) (hlt : i < stop) :
    ∃ c ∈ contours, c.first ≤ i ∧ i ≤ c.last := by
  induction contours generalizing start with
  | nil =>
    obtain rfl : start = stop := h
    omega
  | cons c rest ih =>
    obtain ⟨rfl, hle, hrest⟩ := h
    by_cases hlast : i ≤ c.last
    · exact ⟨c, List.mem_cons_self, hi, hlast⟩
    · obtain ⟨d, hd, hfirst, hlast⟩ := ih hrest (by omega)
      exact ⟨d, List.mem_cons_of_mem c hd, hfirst, hlast⟩

theorem IsTiled.isWellFormed (h : f.IsTiled f.knots.size) : f.IsWellFormed := by
  have htraced (c : Contour) (hc : c ∈ f.contours) : f.IsTraced c :=
    h.traced c (Array.mem_toList_iff.mpr hc)
  have hrange (c : Contour) (hc : c ∈ f.contours) :
      ∃ n, c.last = c.first + n ∧ f.contourKnots c = List.range' c.first (n + 1) := by
    have hle := (htraced c hc).path.le
    refine ⟨c.last - c.first, by omega, ?_⟩
    rw [(htraced c hc).contourKnots]
    congr 1
    omega
  constructor
  case knots =>
    rw [flatMap_contourKnots h.traced h.tiles, List.range_eq_range']
    rfl
  case first =>
    intro c hc
    obtain ⟨n, -, hn⟩ := hrange c hc
    rw [hn, List.range'_succ]
    rfl
  case last =>
    intro c hc
    obtain ⟨n, hlast, hn⟩ := hrange c hc
    rw [hn, List.range'_concat, List.getLast?_concat, hlast, Nat.one_mul]
  case segments => exact h.joined
  case segmentOut =>
    intro i hi s hs
    obtain ⟨c, hc, hfirst, hlast⟩ := h.tiles.exists_mem (Nat.zero_le i) hi
    exact (h.traced c hc).segmentOut hfirst hlast hs
  case segmentIn =>
    intro j hj s hs
    obtain ⟨c, hc, hfirst, hlast⟩ := h.tiles.exists_mem (Nat.zero_le j) hj
    exact (h.traced c hc).segmentIn hfirst hlast hs
  case isClosed => exact fun c hc => (htraced c hc).isClosed_iff
  case isOpen =>
    intro c hc hopen
    rcases (htraced c hc).ends with hloose | hclosed
    · exact ⟨hloose.segmentOut, hloose.segmentIn⟩
    · rw [(htraced c hc).isClosed_iff.mpr hclosed] at hopen
      cases hopen

end Figure

-- ---------------------------------------------------------------------------
-- Commands
-- ---------------------------------------------------------------------------

namespace Builder

def IsSound (b : Builder α) : Prop :=
  match b.path with
  | none => b.figure.IsTiled b.figure.knots.size
  | some (first, last) => b.figure.IsDrawing first last

variable {b : Builder α}

theorem isSound_of_none (hpath : b.path = none) :
    b.IsSound ↔ b.figure.IsTiled b.figure.knots.size := by
  rw [IsSound, hpath]

theorem isSound_of_some {first last : ℕ} (hpath : b.path = some (first, last)) :
    b.IsSound ↔ b.figure.IsDrawing first last := by
  rw [IsSound, hpath]

theorem isSound_empty (order : CurveOrder) : ({ order } : Builder α).IsSound := by
  refine (isSound_of_none rfl).mpr ⟨fun c hc => ?_, fun s hs => ?_, rfl⟩
  · cases hc
  · cases hs

theorem path_endContour (close : Bool) : (b.endContour close).path = none := by
  unfold endContour
  split
  · assumption
  · rfl

theorem IsSound.endContour (h : b.IsSound) (close : Bool) : (b.endContour close).IsSound := by
  rcases hpath : b.path with _ | ⟨first, last⟩
  · rw [Builder.endContour, hpath]
    exact h
  · rw [isSound_of_some hpath] at h
    rw [isSound_of_none (path_endContour close), Builder.endContour, hpath]
    dsimp only
    split_ifs with hsame hjoin hclose
    · exact h.leave
    · obtain ⟨segment, hsegment, htiled⟩ := h.join hsame
      rw [hsegment]
      exact htiled
    · exact h.close hsame b.order
    · exact h.leave

theorem IsSound.moveTo (h : b.IsSound) (p : Point α) : (b.moveTo p).IsSound := by
  have hend := (isSound_of_none (path_endContour false)).mp (h.endContour false)
  exact (isSound_of_some rfl).mpr (hend.addKnot rfl rfl)

theorem IsSound.start (h : b.IsSound) (p : Point α) : (b.start p).IsSound := by
  unfold Builder.start
  split
  · exact h
  · exact h.moveTo p

theorem IsSound.modifyCurrent (h : b.IsSound) {change : Knot α → Knot α}
    (hin : ∀ k, (change k).segmentIn = k.segmentIn ∧ (change k).controlIn = k.controlIn)
    (hout : ∀ k, (change k).segmentOut = k.segmentOut) : (b.modifyCurrent change).IsSound := by
  rcases hpath : b.path with _ | ⟨first, last⟩
  · rw [Builder.modifyCurrent, current, hpath]
    exact h
  · rw [isSound_of_some hpath] at h
    rw [modifyCurrent_eq hpath]
    exact (isSound_of_some (b := b.modifyKnot last change) hpath).mpr (h.modifyLast hin hout)

theorem IsSound.extend (h : b.IsSound) {k : Knot α} (hin : k.segmentIn = none)
    (hout : k.segmentOut = none) (order : CurveOrder) : (b.extend k order).IsSound := by
  rcases hpath : b.path with _ | ⟨first, last⟩
  · rw [Builder.extend, hpath]
    exact h
  · rw [isSound_of_some hpath] at h
    rw [extend_eq hpath]
    exact (isSound_of_some rfl).mpr (h.extend hin hout order)

def obey (b : Builder α) : PenCommand α → Builder α
  | .moveTo p => b.moveTo p
  | .lineTo p => b.lineTo p
  | .quadTo c p => b.quadTo c p
  | .curveTo c1 c2 p => b.curveTo c1 c2 p
  | .close => b.close

theorem IsSound.obey (h : b.IsSound) (command : PenCommand α) : (b.obey command).IsSound := by
  cases command with
  | moveTo p => exact h.moveTo p
  | lineTo p => exact (h.start p).extend rfl rfl _
  | quadTo c p =>
    have hcontrol : ((b.start c).modifyCurrent ({ · with controlOut := some c })).IsSound :=
      (h.start c).modifyCurrent (fun _ => ⟨rfl, rfl⟩) fun _ => rfl
    exact hcontrol.extend (k := { anchor := p, controlIn := some c }) rfl rfl .quadratic
  | curveTo c1 c2 p =>
    have hcontrol : ((b.start c1).modifyCurrent fun k =>
        { k with controlOut := if c1 == k.anchor then none else some c1 }).IsSound :=
      (h.start c1).modifyCurrent (fun _ => ⟨rfl, rfl⟩) fun _ => rfl
    exact hcontrol.extend (k := { anchor := p, controlIn := if c2 == p then none else some c2 })
      rfl rfl .cubic
  | close => exact h.endContour true

def obeyAll (b : Builder α) (commands : List (PenCommand α)) : Builder α :=
  commands.foldl obey b

theorem IsSound.obeyAll (h : b.IsSound) (commands : List (PenCommand α)) :
    (b.obeyAll commands).IsSound := by
  induction commands generalizing b with
  | nil => exact h
  | cons command rest ih => exact ih (h.obey command)

-- ---------------------------------------------------------------------------
-- The number of contours
-- ---------------------------------------------------------------------------

def contourCount (b : Builder α) : ℕ := b.figure.contours.size + b.path.isSome.toNat

/-- How many contours some commands start: every move starts one, and so does a line or a curve if
no contour is being drawn. -/
def moveCount (isDrawing : Bool) : List (PenCommand α) → ℕ
  | [] => 0
  | .moveTo _ :: rest => 1 + moveCount true rest
  | .close :: rest => moveCount false rest
  | _ :: rest => (!isDrawing).toNat + moveCount true rest

theorem contourCount_endContour (close : Bool) :
    (b.endContour close).contourCount = b.contourCount := by
  rcases hpath : b.path with _ | ⟨first, last⟩
  · rw [endContour, hpath]
  · have hcount (f : Figure α) (c : Contour) (h : f.contours = b.figure.contours) :
        (f.addContour c).contours.size + (none : Option (ℕ × ℕ)).isSome.toNat =
          b.contourCount := by
      rw [contourCount, hpath, Figure.addContour, Array.size_push, h]
      rfl
    rw [endContour, hpath]
    dsimp only
    refine hcount _ _ ?_
    split_ifs
    · rfl
    · split <;> rfl
    · rfl
    · rfl

theorem contourCount_moveTo (p : Point α) : (b.moveTo p).contourCount = b.contourCount + 1 := by
  rw [← contourCount_endContour (b := b) false, contourCount, contourCount, path_endContour]
  rfl

/-- A command other than a move or the end of a contour starts a contour if there is none. -/
theorem contourCount_start (p : Point α) :
    (b.start p).contourCount = b.contourCount + (!b.path.isSome).toNat ∧
      (b.start p).path.isSome = true := by
  rcases hpath : b.path with _ | ⟨first, last⟩
  · rw [start, hpath]
    exact ⟨contourCount_moveTo p, rfl⟩
  · rw [start_eq hpath]
    exact ⟨rfl, by rw [hpath]; rfl⟩

omit [Scalar α] in
theorem contourCount_modifyCurrent (change : Knot α → Knot α) :
    (b.modifyCurrent change).contourCount = b.contourCount ∧
      (b.modifyCurrent change).path = b.path := by
  unfold modifyCurrent
  split
  · exact ⟨rfl, rfl⟩
  · exact ⟨rfl, rfl⟩

theorem contourCount_extend (h : b.path.isSome = true) (k : Knot α) (order : CurveOrder) :
    (b.extend k order).contourCount = b.contourCount ∧
      (b.extend k order).path.isSome = true := by
  obtain ⟨⟨first, last⟩, hpath⟩ := Option.isSome_iff_exists.mp h
  rw [extend_eq hpath, contourCount, contourCount, hpath]
  exact ⟨rfl, rfl⟩

theorem contourCount_draw (p : Point α) (change : Knot α → Knot α) (k : Knot α)
    (order : CurveOrder) :
    let b' := ((b.start p).modifyCurrent change).extend k order
    b'.contourCount = b.contourCount + (!b.path.isSome).toNat ∧ b'.path.isSome = true := by
  obtain ⟨hcount, hpath⟩ := contourCount_start (b := b) p
  obtain ⟨hcount', hpath'⟩ := contourCount_modifyCurrent (b := b.start p) change
  rw [← hpath'] at hpath
  obtain ⟨hcount'', hpath''⟩ := contourCount_extend hpath k order
  exact ⟨by rw [hcount'', hcount', hcount], hpath''⟩

theorem contourCount_lineTo (p : Point α) :
    (b.lineTo p).contourCount = b.contourCount + (!b.path.isSome).toNat ∧
      (b.lineTo p).path.isSome = true := by
  obtain ⟨hcount, hpath⟩ := contourCount_start (b := b) p
  obtain ⟨hcount', hpath'⟩ := contourCount_extend hpath { anchor := p } (b.start p).order
  exact ⟨hcount'.trans hcount, hpath'⟩

theorem contourCount_obeyAll (commands : List (PenCommand α)) :
    (b.obeyAll commands).contourCount = b.contourCount + moveCount b.path.isSome commands := by
  induction commands generalizing b with
  | nil => rfl
  | cons command rest ih =>
    have hdraw (hstep : (b.obey command).contourCount = b.contourCount + (!b.path.isSome).toNat ∧
        (b.obey command).path.isSome = true) :
        ((b.obey command).obeyAll rest).contourCount =
          b.contourCount + ((!b.path.isSome).toNat + moveCount true rest) := by
      rw [ih, hstep.1, hstep.2, Nat.add_assoc]
    cases command with
    | moveTo p =>
      show ((b.moveTo p).obeyAll rest).contourCount = b.contourCount + (1 + moveCount true rest)
      rw [ih, contourCount_moveTo, Nat.add_assoc]
      rfl
    | lineTo p => exact hdraw (contourCount_lineTo p)
    | quadTo c p => exact hdraw (contourCount_draw c _ _ _)
    | curveTo c1 c2 p => exact hdraw (contourCount_draw c1 _ _ _)
    | close =>
      show (b.close.obeyAll rest).contourCount = b.contourCount + moveCount false rest
      rw [ih, close, contourCount_endContour, path_endContour]
      rfl

/-- Whatever commands are drawn, in any order, the figure is well-formed and has one contour for
every move, those included that a line or a curve makes without being asked. -/
theorem isWellFormed_finish (order : CurveOrder) (commands : List (PenCommand α)) :
    (({ order } : Builder α).obeyAll commands).finish.IsWellFormed ∧
      (({ order } : Builder α).obeyAll commands).finish.contours.size =
        moveCount false commands := by
  have hsound := ((isSound_empty order).obeyAll commands).endContour false
  have hcount := contourCount_endContour (b := ({ order } : Builder α).obeyAll commands) false
  rw [contourCount_obeyAll, contourCount, path_endContour, contourCount] at hcount
  refine ⟨((isSound_of_none (path_endContour false)).mp hsound).isWellFormed, ?_⟩
  simpa [finish] using hcount

example (p : Point Float) :
    moveCount false [.close, .lineTo p, .close, .close, .quadTo p p, .moveTo p, .lineTo p] = 3 := rfl

end Builder

end Letterform
