import Letterform.Proofs.Charstring.Alike

/-!
# Outlines that are closed before they are written

A charstring says nothing of the lines that close contours, in no dialect. So it makes no difference
to what is written whether the contours of an outline have been closed by lines before, also if its
quadratic curves have to be raised first.
-/

namespace Letterform

variable {α : Type} [Scalar α]

theorem map_eq_of_forall₂ {β γ : Type} {F : β → γ} {xs ys : List β}
    (h : List.Forall₂ (fun x y => F y = F x) xs ys) : ys.map F = xs.map F := by
  rw [← List.forall₂_eq_eq_eq, List.forall₂_map_left_iff, List.forall₂_map_right_iff]
  exact h.flip

namespace Charstring

-- ---------------------------------------------------------------------------
-- What is written of an outline
-- ---------------------------------------------------------------------------

theorem legsFrom_congr {version : Version} {strokes strokes' : List (Stroke α)}
    (h : strokes'.map Stroke.leg = strokes.map Stroke.leg) (start : Point α) :
    legsFrom version start strokes' = legsFrom version start strokes := by
  induction strokes generalizing strokes' start with
  | nil =>
    obtain rfl := List.map_eq_nil_iff.mp h
    rfl
  | cons s strokes ih =>
    obtain ⟨s', rest, rfl, hleg, hrest⟩ := List.map_eq_cons_iff.mp h
    obtain ⟨-, hcontrols, hstop, hmask⟩ := Leg.mk.inj hleg
    cases hline : s.isLine <;> cases hline' : s'.isLine <;> rw [hline, hline'] at hcontrols
    · obtain ⟨hleaving, harriving⟩ := Prod.mk.inj (Option.some.inj hcontrols)
      simp only [legsFrom, hline, hline', Bool.false_eq_true, if_false, hstop, hmask, hleaving,
        harriving, ih hrest]
    · cases hcontrols
    · cases hcontrols
    · simp only [legsFrom, hline, hline', if_true, hstop, hmask, ih hrest]

theorem ofContour_congr {version : Version} {f f' : Figure α} {c c' : Contour}
    (h : f'.trace c' = f.trace c) :
    Trace.ofContour version f' c' = Trace.ofContour version f c := by
  obtain ⟨hstart, hmask, hlegs⟩ := Trace.mk.inj h
  unfold Trace.ofContour
  simp only [hstart, hmask, legsFrom_congr hlegs]

end Charstring

/-- Two glyphs with outlines that are alike and with the same metrics, hints and components. -/
structure Glyph.Alike (g g' : Glyph α) : Prop where
  figures : List.Forall₂ (fun f f' : Figure α => f.IsNeat ∧ f'.IsNeat ∧ f.Alike f') g.figures
    g'.figures
  rest : g' = { g with figures := g'.figures }

theorem Glyph.Alike.traces {g g' : Glyph α} (h : g.Alike g') :
    List.Forall₂ (fun fc fc' : Figure α × Contour => fc'.1.trace fc'.2 = fc.1.trace fc.2)
      g.contours g'.contours := by
  refine List.rel_flatMap h.figures fun f f' ⟨hf, hf', hlike⟩ => ?_
  rw [hlike.contours, List.forall₂_map_left_iff, List.forall₂_map_right_iff, List.forall₂_same]
  intro c hc
  have hc := Array.mem_toList_iff.mp hc
  exact hlike.trace (hf.traced hc) (hf'.traced (hlike.contours ▸ hc)) hc

namespace Charstring

variable {g g' : Glyph α}

theorem traces_congr (h : g.Alike g') (version : Version) :
    traces version g' = traces version g := by
  have hmapM {contours contours' : List (Figure α × Contour)}
      (h : List.Forall₂ (fun fc fc' : Figure α × Contour => fc'.1.trace fc'.2 = fc.1.trace fc.2)
        contours contours') :
      (contours'.mapM fun fc' => Trace.ofContour version fc'.1 fc'.2) =
        contours.mapM fun fc => Trace.ofContour version fc.1 fc.2 := by
    induction h with
    | nil => rfl
    | cons hfc _ ih => rw [List.mapM_cons, List.mapM_cons, ofContour_congr hfc, ih]
  exact hmapM h.traces

theorem hasMasks_congr (h : g.Alike g') : hasMasks g' = hasMasks g := by
  have hany (f : Figure α) : f.knots.any (·.mask.isSome) = true ↔
      ∃ i < f.knots.size, (f.knot i).mask.isSome = true := by
    rw [Array.any_eq_true]
    refine exists_congr fun i => ⟨fun ⟨hi, h⟩ => ⟨hi, ?_⟩, fun ⟨hi, h⟩ => ⟨hi, ?_⟩⟩
    · rwa [f.knot_eq_getElem hi]
    · rwa [← f.knot_eq_getElem hi]
  have hmap : g'.figures.map (fun f => f.knots.any (·.mask.isSome)) =
      g.figures.map fun f => f.knots.any (·.mask.isSome) := by
    refine map_eq_of_forall₂ (h.figures.imp fun f f' ⟨_, _, hlike⟩ => ?_)
    have hmask (i : ℕ) : (f'.knot i).mask = (f.knot i).mask :=
      (congrArg Knot.mask (hlike.knot i) :)
    refine Bool.eq_iff_iff.mpr ((hany f').trans (Iff.trans ?_ (hany f).symm))
    rw [hlike.size]
    simp only [hmask]
  have hfigures : (g'.figures.any fun f => f.knots.any (·.mask.isSome)) =
      g.figures.any fun f => f.knots.any (·.mask.isSome) := by
    simpa only [List.any_map, Function.id_comp] using congrArg (List.any · id) hmap
  unfold hasMasks
  rw [hfigures, h.rest]

theorem instructionsFor_congr (h : g.Alike g') (ctx : Context α) (options : EncodeOptions α)
    (accented : Option (Accented α)) :
    instructionsFor ctx options g' accented = instructionsFor ctx options g accented := by
  have htraces := traces_congr h
  have hmasks := hasMasks_congr h
  obtain ⟨-, hrest⟩ := h
  generalize g'.figures = figures at hrest
  subst hrest
  simp only [instructionsFor, instructions, plainInstructions, htraces, hmasks]

theorem ofGlyph_congr (h : g.Alike g') : Accented.ofGlyph g' = Accented.ofGlyph g := by
  have hmap : g'.figures.map Figure.isEmpty = g.figures.map Figure.isEmpty :=
    map_eq_of_forall₂ (h.figures.imp fun f f' ⟨_, _, hlike⟩ => by
      rw [Figure.isEmpty, Figure.isEmpty, hlike.contours])
  have hcontours : g'.hasContours = g.hasContours := by
    unfold Glyph.hasContours
    simpa only [List.all_map, Function.id_comp] using congrArg (fun l => !List.all l id) hmap
  obtain ⟨-, hrest⟩ := h
  generalize g'.figures = figures at hrest
  subst hrest
  unfold Accented.ofGlyph
  rw [hcontours]

-- ---------------------------------------------------------------------------
-- Outlines with lines that close their contours
-- ---------------------------------------------------------------------------

theorem encode_of_gainsLines {figures : List (Figure α)}
    (h : List.Forall₂ (fun f f' : Figure α => f.IsNeat ∧ f'.IsNeat ∧ f.GainsLines f') g.figures
      figures) (ctx : Context α) (options : EncodeOptions α) :
    encode ctx options { g with figures } = encode ctx options g := by
  have halike : g.Alike { g with figures } :=
    ⟨h.imp fun _ _ ⟨hf, hf', hgains⟩ => ⟨hf, hf', hgains.alike hf hf'⟩, rfl⟩
  have hraised : (g.convert .postscript defaultAccuracy).Alike
      (({ g with figures } : Glyph α).convert .postscript defaultAccuracy) := by
    refine ⟨?_, rfl⟩
    unfold Glyph.convert
    rw [List.forall₂_map_left_iff, List.forall₂_map_right_iff]
    exact h.imp fun _ _ ⟨hf, hf', hgains⟩ => hgains.redraw hf hf' defaultAccuracy
  have hcurves : ({ g with figures } : Glyph α).hasCurves .quadratic = g.hasCurves .quadratic := by
    have hmap : figures.map (·.hasCurves .quadratic) = g.figures.map (·.hasCurves .quadratic) :=
      map_eq_of_forall₂ (h.imp fun _ _ ⟨_, _, hgains⟩ => hgains.hasCurves .quadratic)
    unfold Glyph.hasCurves
    simpa only [List.any_map, Function.id_comp] using congrArg (List.any · id) hmap
  unfold encode
  rw [hcurves]
  cases g.hasCurves .quadratic with
  | true => simp only [if_true, instructionsFor_congr hraised, ofGlyph_congr hraised]
  | false =>
    simp only [Bool.false_eq_true, if_false, instructionsFor_congr halike, ofGlyph_congr halike]

/-- Closing the open contours of a glyph closes every contour of two knots or more and leaves the
knots of all contours and the closed ones alone. Done again it changes nothing more. The outline is
drawn and written as before. -/
theorem encode_closeOpenContours (h : ∀ f ∈ g.figures, f.IsDrawn) :
    List.Forall₂ Figure.ClosesTo g.figures (g.closeOpenContours .filled).figures ∧
      (g.closeOpenContours .filled).closeOpenContours .filled = g.closeOpenContours .filled ∧
      (g.closeOpenContours .filled).draw = g.draw ∧
      ∀ (ctx : Context α) (options : EncodeOptions α),
        encode ctx options (g.closeOpenContours .filled) = encode ctx options g := by
  have hneat (f : Figure α) (hf : f ∈ g.figures) : f.IsNeat := (h f hf).isNeat
  refine ⟨?_, Glyph.closeOpenContours_closeOpenContours hneat, Glyph.draw_closeOpenContours hneat,
    fun ctx options => ?_⟩
  · rw [Glyph.closeOpenContours_filled, List.forall₂_map_right_iff, List.forall₂_same]
    exact fun f hf => (hneat f hf).closesTo g.format.curveOrder
  · rw [Glyph.closeOpenContours_filled]
    refine encode_of_gainsLines ?_ ctx options
    rw [List.forall₂_map_right_iff, List.forall₂_same]
    intro f hf
    obtain ⟨hgains, hclosed, -⟩ := (hneat f hf).closeAll g.format.curveOrder
    exact ⟨hneat f hf, hclosed, hgains⟩

/-- An arc that stays open, a triangle that is closed by a line, and a single point. -/
def ajarCalls : List (Call Float) :=
  [.draw (.moveTo ⟨0, 0⟩), .draw (.quadTo ⟨50, 100⟩ ⟨100, 0⟩), .put 1 (.number (some 2)),
    .draw (.moveTo ⟨200, 0⟩), .draw (.lineTo ⟨300, 0⟩), .draw (.lineTo ⟨300, 80⟩), .draw .close,
    .draw (.moveTo ⟨0, 300⟩)]

def ajar : Figure Float := (({ order := .quadratic } : Builder Float).callAll ajarCalls).finish

def ajarGlyph : Glyph Float := { Glyph.empty .truetype with figures := [ajar] }

theorem encode_closeOpenContours_ajar :
    (∀ f ∈ ajarGlyph.figures, f.IsDrawn) ∧ ajar.isClosed { first := 0, last := 1 } = false ∧
      List.Forall₂ Figure.ClosesTo ajarGlyph.figures
        (ajarGlyph.closeOpenContours .filled).figures ∧
      (ajarGlyph.closeOpenContours .filled).closeOpenContours .filled =
        ajarGlyph.closeOpenContours .filled ∧
      (ajarGlyph.closeOpenContours .filled).draw = ajarGlyph.draw ∧
      ∀ (ctx : Context Float) (options : EncodeOptions Float),
        encode ctx options (ajarGlyph.closeOpenContours .filled) =
          encode ctx options ajarGlyph := by
  have hdrawn : ∀ f ∈ ajarGlyph.figures, f.IsDrawn :=
    List.forall_mem_singleton.mpr ⟨.quadratic, ajarCalls, rfl⟩
  exact ⟨hdrawn, by decide +kernel, encode_closeOpenContours hdrawn⟩

end Charstring

end Letterform
