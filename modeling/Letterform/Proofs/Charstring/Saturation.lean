import Letterform.Proofs.Charstring.Accented
import Letterform.Proofs.Charstring.WidthRoundTrip
import Letterform.Proofs.Number.FixedWord

/-!
# Operands out of range

The encoder checks the magnitude of coordinates, of the starts and the widths of stems, but not that
of the differences that it writes. It computes them without rounding, and each comes back from its
operand exactly if its whole part fits in 16 bits. Any other one comes back as the nearest number in
range, and what is decoded goes on from there. The advance width is not checked at all and need not
lie on the grid, so it comes back close to what it was under the same condition.
-/

namespace Letterform

open Scalar (Agree IsFixed OnGrid units)

namespace Double

/-- On the grid and in the range of coordinates, if it is a number at all. -/
def IsSnapped (a : Float) : Prop := (a == a) = true → Agree a a

/-- On the grid and below `2 ^ 22`, if it is a number at all. -/
def IsExact (a : Float) : Prop := (a == a) = true → OnGrid a ∧ |units a| < 2 ^ 32

theorem IsSnapped.isExact {a : Float} (h : IsSnapped a) : IsExact a := by
  intro hself
  have ha := h hself
  have := ha.bound
  exact ⟨ha.onGrid.1, by rw [abs_lt]; omega⟩

theorem IsSnapped.sub {a b : Float} (ha : IsSnapped a) (hb : IsSnapped b) : IsExact (a - b) := by
  intro hself
  obtain ⟨hselfa, hselfb⟩ := beq_self_of_sub hself
  have ha := ha hselfa
  have hb := hb hselfb
  have := ha.bound
  have := hb.bound
  obtain ⟨hgrid, hunits⟩ := ha.onGrid.1.sub hb.onGrid.1 (by omega) (by omega)
  exact ⟨hgrid, by rw [abs_lt]; omega⟩

end Double

structure Point.IsSnapped (p : Point Float) : Prop where
  x : Double.IsSnapped p.x
  y : Double.IsSnapped p.y

namespace Charstring

open Double (IsExact IsSnapped StandsFor)

variable {α : Type} [Scalar α] {version : Version} {P : α → Prop}

-- ---------------------------------------------------------------------------
-- Differences
-- ---------------------------------------------------------------------------

theorem reread_beq_iff [LawfulScalar α] (hversion : version ≠ .type1) {a : α} (ha : OnGrid a)
    (hsmall : |units a| < 2 ^ 32) :
    (Operand.reread version a == a) = true ↔ -32768 ≤ a ∧ a < 32768 := by
  rw [abs_lt] at hsmall
  have hlow : IsFixed (-32768 : α) (-(65536 * 32768)) :=
    (Scalar.isFixed_ofInt (by norm_num)).neg
  have hhigh : IsFixed (32768 : α) (65536 * 32768) := Scalar.isFixed_ofInt (by norm_num)
  have hreread := Operand.isFixed_reread_saturated hversion ha.isFixed (by rw [abs_lt]; omega)
  rw [hreread.beq_iff ha.isFixed, hlow.le_iff ha.isFixed, ha.isFixed.lt_iff hhigh]
  omega

theorem reread_exact_beq_iff (hversion : version ≠ .type1) {a : Float} (h : IsExact a) :
    (Operand.reread version a == a) = true ↔ -32768 ≤ a ∧ a < 32768 := by
  by_cases hself : (a == a) = true
  · exact reread_beq_iff hversion (h hself).1 (h hself).2
  · exact iff_of_false (fun h => hself (Double.beq_self_of_beq h))
      fun h => hself (LawfulScalar.beq_self_of_lt h.2)

theorem isSnapped_coordinate (hversion : version ≠ .type1) {a p : Float}
    (h : coordinate version a = .ok p) : IsSnapped p := by
  obtain ⟨rfl, hlimit⟩ := coordinate_ok hversion h
  exact fun hself => agree_snap hself hlimit

theorem isSnapped_roundedPoint (hversion : version ≠ .type1) {p q : Point Float}
    (h : roundedPoint version p = .ok q) : q.IsSnapped := by
  obtain ⟨x, hx, h⟩ := bind_ok.mp h
  obtain ⟨y, hy, h⟩ := bind_ok.mp h
  cases h
  exact ⟨isSnapped_coordinate hversion hx, isSnapped_coordinate hversion hy⟩

def Instruction.operands : Instruction α → List α
  | .operation _ operands => operands
  | .mask .. => []

/-- The operands of an instruction that are computed from coordinates and stems. The last one of a
flex is its depth. -/
def Instruction.differences : Instruction α → List α
  | .operation (.path .flex) operands => operands.dropLast
  | .operation _ operands => operands
  | .mask .. => []

omit [Scalar α] in
theorem Instruction.mem_of_mem_differences {op : Operator} {operands : List α} {a : α}
    (h : a ∈ (operation op operands).differences) : a ∈ operands := by
  unfold differences at h
  split at h
  · rename_i heq
    cases heq
    exact List.mem_of_mem_dropLast h
  · rename_i heq
    cases heq
    exact h
  · cases h

-- ---------------------------------------------------------------------------
-- Path operators
-- ---------------------------------------------------------------------------

def PathStep.All (P : α → Prop) : PathStep α → Prop
  | .line dx dy => P dx ∧ P dy
  | .curve dx1 dy1 dx2 dy2 dx3 dy3 => P dx1 ∧ P dy1 ∧ P dx2 ∧ P dy2 ∧ P dx3 ∧ P dy3

omit [Scalar α] in
@[simp] theorem PathStep.all_line (dx dy : α) : (PathStep.line dx dy).All P ↔ P dx ∧ P dy := .rfl

omit [Scalar α] in
@[simp] theorem PathStep.all_curve (dx1 dy1 dx2 dy2 dx3 dy3 : α) :
    (PathStep.curve dx1 dy1 dx2 dy2 dx3 dy3).All P ↔
      P dx1 ∧ P dy1 ∧ P dx2 ∧ P dy2 ∧ P dx3 ∧ P dy3 := .rfl

def GroupsAll (P : α → Prop) (groups : List (List α)) : Prop := ∀ a ∈ groups.flatten, P a

omit [Scalar α] in
@[simp] theorem groupsAll_nil : GroupsAll P [] := nofun

omit [Scalar α] in
@[simp] theorem groupsAll_cons {g : List α} {groups : List (List α)} :
    GroupsAll P (g :: groups) ↔ (∀ a ∈ g, P a) ∧ GroupsAll P groups := by
  rw [GroupsAll, List.flatten_cons, List.forall_mem_append]
  rfl

omit [Scalar α] in
theorem GroupsAll.concat {g : List α} {groups : List (List α)} (h : GroupsAll P groups)
    (hg : ∀ a ∈ g, P a) : GroupsAll P (groups ++ [g]) := by
  rw [GroupsAll, List.flatten_append, List.flatten_singleton, List.forall_mem_append]
  exact ⟨h, hg⟩

namespace Command

variable {steps : List (PathStep α)}

theorem alternatingGroups_all (h : ∀ s ∈ steps, s.All P) (horizontal : Bool) (room : ℕ) :
    GroupsAll P (alternatingGroups horizontal room steps) := by
  fun_induction alternatingGroups <;> simp_all

theorem slopingGroups_all (h : ∀ s ∈ steps, s.All P) (limit used : ℕ) :
    GroupsAll P (slopingGroups limit used steps) := by
  fun_induction slopingGroups <;> simp_all

theorem levelGroups_all (h : ∀ s ∈ steps, s.All P) (limit : ℕ) (horizontal : Bool) (used : ℕ) :
    GroupsAll P (levelGroups limit horizontal used steps) := by
  cases horizontal <;> fun_induction levelGroups <;> simp_all

theorem turningGroups_all (h : ∀ s ∈ steps, s.All P) (limit : ℕ) (horizontal : Bool) (used : ℕ) :
    GroupsAll P (turningGroups limit horizontal used steps) := by
  induction steps generalizing horizontal used with
  | nil => exact groupsAll_nil
  | cons s rest ih =>
    obtain ⟨hs, hrest⟩ := List.forall_mem_cons.mp h
    cases s with
    | line => exact groupsAll_nil
    | curve =>
      have := ih hrest (!horizontal) (used + 4)
      cases horizontal <;> simp only [turningGroups] <;> split_ifs <;> simp_all

theorem generalGroups_all (h : ∀ s ∈ steps, s.All P) (limit used : ℕ) :
    GroupsAll P (generalGroups limit used steps) := by
  fun_induction generalGroups <;> simp_all

theorem ofLines_all {limit : ℕ} {dx dy : α} (h : ∀ s ∈ steps, s.All P) :
    GroupsAll P (ofLines limit dx dy steps).groups := by
  have hgroups := slopingGroups_all h limit 0
  unfold ofLines
  split_ifs
  · exact alternatingGroups_all h _ _
  · exact alternatingGroups_all h _ _
  · dsimp only
    split
    · rename_i hdrop
      have hcurve := h _ (List.mem_of_mem_drop (hdrop ▸ List.mem_cons_self))
      split_ifs
      · exact hgroups.concat (by simpa using hcurve)
      · exact hgroups
    · exact hgroups

theorem ofCurves_all {limit : ℕ} {dx1 dy1 dx2 dy2 dx3 dy3 : α}
    (h : ∀ s ∈ .curve dx1 dy1 dx2 dy2 dx3 dy3 :: steps, s.All P) :
    GroupsAll P (ofCurves limit dx1 dy1 dx2 dy2 dx3 dy3 steps).groups := by
  obtain ⟨hs, hrest⟩ := List.forall_mem_cons.mp h
  have hgroups : GroupsAll P ([dx1, dy1, dx2, dy2, dx3, dy3] :: generalGroups limit 6 steps) :=
    groupsAll_cons.mpr ⟨by simpa using hs, generalGroups_all hrest limit 6⟩
  unfold ofCurves
  dsimp only
  by_cases hh : startsHorizontal dx1 dy1 dy3 = true
  · rw [if_pos hh]
    exact levelGroups_all h limit true 0
  by_cases hv : startsVertical dx1 dy1 dx3 = true
  · rw [if_neg hh, if_pos hv]
    exact levelGroups_all h limit false 0
  by_cases hy : (dy1 == 0) = true
  · rw [if_neg hh, if_neg hv, if_pos hy]
    exact turningGroups_all h limit true 0
  by_cases hx : (dx1 == 0) = true
  · rw [if_neg hh, if_neg hv, if_neg hy, if_pos hx]
    exact turningGroups_all h limit false 0
  · rw [if_neg hh, if_neg hv, if_neg hy, if_neg hx]
    generalize [dx1, dy1, dx2, dy2, dx3, dy3] :: generalGroups limit 6 steps = groups at hgroups ⊢
    split
    · rename_i hdrop
      have hline := h _ (List.mem_of_mem_drop (hdrop ▸ List.mem_cons_self))
      split_ifs
      · exact hgroups.concat (by simpa using hline)
      · exact hgroups
    · exact hgroups

theorem ofFlex?_all {options : EncodeOptions α} {legs : List (Leg α)} {c : Command α}
    (h : ∀ l ∈ legs, l.step.All P) (hlinked : Linked legs) (hc : ofFlex? options legs = some c) :
    ∀ a ∈ (Instruction.ofCommand c).differences, P a := by
  unfold ofFlex? at hc
  split at hc
  · rename_i s c1 c2 p mask start' c3 c4 e mask' rest
    obtain ⟨hl1, hl2, -⟩ := List.forall_mem_cons.mp h |>.imp_right List.forall_mem_cons.mp
    obtain rfl : start' = p := (List.isChain_cons_cons.mp hlinked).1
    obtain ⟨h1x, h1y, h2x, h2y, h3x, h3y⟩ : P (c1 - s).x ∧ P (c1 - s).y ∧ P (c2 - c1).x ∧
      P (c2 - c1).y ∧ P (start' - c2).x ∧ P (start' - c2).y := hl1
    obtain ⟨h4x, h4y, h5x, h5y, h6x, h6y⟩ : P (c3 - start').x ∧ P (c3 - start').y ∧
      P (c4 - c3).x ∧ P (c4 - c3).y ∧ P (e - c4).x ∧ P (e - c4).y := hl2
    dsimp only at hc
    split_ifs at hc <;> cases hc <;>
      simp [Instruction.ofCommand, Instruction.differences, operands, *]
  · cases hc

theorem choose_all {options : EncodeOptions α} {limit : ℕ} {legs : List (Leg α)} {c : Command α}
    (h : ∀ l ∈ legs, l.step.All P) (hlinked : Linked legs)
    (hc : choose options limit legs = some c) :
    ∀ a ∈ (Instruction.ofCommand c).differences, P a := by
  have hsteps : ∀ s ∈ legs.map Leg.step, s.All P := List.forall_mem_map.mpr h
  unfold choose at hc
  split at hc
  · rename_i command hflex
    cases hc
    split_ifs at hflex
    exact ofFlex?_all h hlinked hflex
  · dsimp only at hc
    generalize legs.map Leg.step = steps at hc hsteps
    rcases steps with _ | ⟨_ | _, rest⟩
    · cases hc
    · cases hc
      exact fun a ha => ofLines_all hsteps a (Instruction.mem_of_mem_differences ha)
    · cases hc
      exact fun a ha => ofCurves_all hsteps a (Instruction.mem_of_mem_differences ha)

end Command

-- ---------------------------------------------------------------------------
-- Instructions
-- ---------------------------------------------------------------------------

/-- All differences in some instructions have a property. -/
def InstructionsAll (P : α → Prop) (program : List (Instruction α)) : Prop :=
  ∀ i ∈ program, ∀ a ∈ i.differences, P a

section

omit [Scalar α]

variable {program program' : List (Instruction α)} {i : Instruction α}

theorem instructionsAll_nil : InstructionsAll P [] := List.forall_mem_nil _

theorem instructionsAll_cons :
    InstructionsAll P (i :: program) ↔ (∀ a ∈ i.differences, P a) ∧ InstructionsAll P program :=
  List.forall_mem_cons

theorem instructionsAll_append :
    InstructionsAll P (program ++ program') ↔
      InstructionsAll P program ∧ InstructionsAll P program' :=
  List.forall_mem_append

theorem instructionsAll_maskBefore (declared : Option (List ℕ)) (mask : Option HintMask) :
    InstructionsAll P (maskBefore (α := α) declared mask) := by
  unfold maskBefore
  split
  · exact instructionsAll_cons.mpr ⟨List.forall_mem_nil _, instructionsAll_nil⟩
  · exact instructionsAll_nil

theorem instructionsAll_operation {op : Operator} {operands : List α} (h : ∀ a ∈ operands, P a) :
    InstructionsAll P [.operation op operands] :=
  instructionsAll_cons.mpr
    ⟨fun a ha => h a (Instruction.mem_of_mem_differences ha), instructionsAll_nil⟩

end

variable {options : EncodeOptions Float}

theorem instructionsAll_runs (limit : ℕ) (declared : Option (List ℕ)) {legs : List (Leg Float)}
    (h : ∀ l ∈ legs, l.step.All IsExact) (hlinked : Linked legs) :
    InstructionsAll IsExact (runs options limit declared legs) := by
  induction hlength : legs.length using Nat.strong_induction_on generalizing legs with
  | _ n ih =>
    subst hlength
    rcases legs with _ | ⟨leg, legs⟩
    · rw [runs]
      exact instructionsAll_nil
    obtain ⟨window, c, hprefix, -, hc, hruns⟩ := runs_choose options limit declared leg legs
    have hwindow : leg :: window <+: leg :: legs := List.cons_prefix_cons.mpr ⟨rfl, hprefix⟩
    have hfirst : Linked (leg :: window) := List.IsChain.prefix hlinked hwindow
    have hsuffix : legs.drop (c.count - 1) <:+ leg :: legs :=
      (List.drop_suffix _ _).trans (List.suffix_cons leg legs)
    rw [hruns, instructionsAll_append, instructionsAll_cons]
    refine ⟨instructionsAll_maskBefore _ _, ?_, ih _ ?_ ?_ (hlinked.suffix hsuffix) rfl⟩
    · exact Command.choose_all (fun l hl => h l (hwindow.mem hl)) hfirst hc
    · simp
    · exact fun l hl => h l (hsuffix.mem hl)

theorem instructionsAll_move {p q : Point Float} (hp : p.IsSnapped) (hq : q.IsSnapped) :
    ∀ a ∈ (Instruction.move p q).differences, IsExact a := by
  have hx : IsExact (q - p).x := hq.x.sub hp.x
  have hy : IsExact (q - p).y := hq.y.sub hp.y
  unfold Instruction.move
  dsimp only
  split_ifs <;> simp [Instruction.differences, hx, hy]

-- ---------------------------------------------------------------------------
-- Contours
-- ---------------------------------------------------------------------------

def Leg.IsSnapped (l : Leg Float) : Prop := ∀ p ∈ l.start :: l.points, p.IsSnapped

theorem Leg.IsSnapped.stop {l : Leg Float} (h : l.IsSnapped) : l.stop.IsSnapped := by
  refine h _ (List.mem_cons_of_mem _ ?_)
  unfold points
  split <;> simp

theorem Leg.IsSnapped.step_all {l : Leg Float} (h : l.IsSnapped) : l.step.All IsExact := by
  obtain ⟨start, _ | ⟨c1, c2⟩, stop, mask⟩ := l
  · obtain ⟨hstart, hstop, -⟩ := List.forall_mem_cons.mp h |>.imp_right List.forall_mem_cons.mp
    exact ⟨hstop.x.sub hstart.x, hstop.y.sub hstart.y⟩
  · have hstart : start.IsSnapped := h _ (by simp [points])
    have h1 : c1.IsSnapped := h _ (by simp [points])
    have h2 : c2.IsSnapped := h _ (by simp [points])
    have hstop : stop.IsSnapped := h _ (by simp [points])
    exact ⟨h1.x.sub hstart.x, h1.y.sub hstart.y, h2.x.sub h1.x, h2.y.sub h1.y, hstop.x.sub h2.x,
      hstop.y.sub h2.y⟩

theorem legsFrom_snapped (hversion : version ≠ .type1) {start : Point Float}
    {strokes : List (Stroke Float)} {legs : List (Leg Float)}
    (h : legsFrom version start strokes = .ok legs) (hstart : start.IsSnapped) :
    (∀ l ∈ legs, l.IsSnapped) ∧ (∀ l ∈ legs.head?, l.start = start) ∧ Linked legs := by
  induction strokes generalizing start legs with
  | nil =>
    cases h
    exact ⟨nofun, nofun, .nil⟩
  | cons s strokes ih =>
    have hcons {leg : Leg Float} {rest : List (Leg Float)} (hleg : leg.start = start)
        (hsnapped : leg.IsSnapped) (hrest : legsFrom version leg.stop strokes = .ok rest) :
        (∀ l ∈ leg :: rest, l.IsSnapped) ∧ (∀ l ∈ (leg :: rest).head?, l.start = start) ∧
          Linked (leg :: rest) := by
      obtain ⟨hsnappeds, hhead, hlinked⟩ := ih hrest hsnapped.stop
      exact ⟨List.forall_mem_cons.mpr ⟨hsnapped, hsnappeds⟩, by simp [hleg],
        List.isChain_cons.mpr ⟨hhead, hlinked⟩⟩
    obtain ⟨leg, rest, hleg, hrest, rfl⟩ := legsFrom_cons_ok.mp h
    cases hleg with
    | line _ hstop =>
      have hstop := isSnapped_roundedPoint hversion hstop
      exact hcons rfl (by simp [Leg.IsSnapped, Leg.points, hstart, hstop]) hrest
    | curve _ hc1 hc2 hstop =>
      have hstop := isSnapped_roundedPoint hversion hstop
      have hc1 := isSnapped_roundedPoint hversion hc1
      have hc2 := isSnapped_roundedPoint hversion hc2
      exact hcons rfl (by simp [Leg.IsSnapped, Leg.points, hstart, hstop, hc1, hc2]) hrest

structure Trace.IsSnapped (t : Trace Float) : Prop where
  start : t.start.IsSnapped
  legs : ∀ l ∈ t.legs, l.IsSnapped
  linked : Linked t.legs

theorem Trace.IsSnapped.stop {t : Trace Float} (h : t.IsSnapped) : t.stop.IsSnapped := by
  unfold Trace.stop
  split
  · rename_i leg hlast
    exact (h.legs leg (List.mem_of_getLast? hlast)).stop
  · exact h.start

theorem traces_snapped (hversion : version ≠ .type1) {g : Glyph Float} {ts : List (Trace Float)}
    (h : traces version g = .ok ts) : ∀ t ∈ ts, t.IsSnapped := by
  intro t ht
  obtain ⟨⟨f, c⟩, -, ht⟩ := exists_of_forall₂ (mapM_ok h) ht
  obtain ⟨start, legs, hstart, hlegs, rfl⟩ := Trace.ofContour_ok.mp ht
  have hstart := isSnapped_roundedPoint hversion hstart
  obtain ⟨hsnapped, -, hlinked⟩ := legsFrom_snapped hversion hlegs hstart
  exact ⟨hstart, hsnapped, hlinked⟩

theorem instructionsAll_contours (limit : ℕ) (declared : Option (List ℕ)) {position : Point Float}
    (hposition : position.IsSnapped) {ts : List (Trace Float)} (h : ∀ t ∈ ts, t.IsSnapped) :
    InstructionsAll IsExact (contours options limit declared position ts) := by
  induction ts generalizing position with
  | nil => exact instructionsAll_nil
  | cons t ts ih =>
    obtain ⟨ht, hts⟩ := List.forall_mem_cons.mp h
    rw [contours_cons, instructionsAll_append, instructionsAll_append, instructionsAll_cons]
    exact ⟨⟨instructionsAll_maskBefore _ _, instructionsAll_move hposition ht.start,
      instructionsAll_runs _ _ (fun l hl => (ht.legs l hl).step_all) ht.linked⟩, ih ht.stop hts⟩

-- ---------------------------------------------------------------------------
-- Stems
-- ---------------------------------------------------------------------------

/-- The edge of a stem may lie at twice the distance of a coordinate, so the start of the next one
at three times this distance from it. -/
theorem stemOperands_all (hversion : version ≠ .type1) {edge : Float}
    (hedge : (edge == edge) = true → OnGrid edge ∧ |units edge| < 2 ^ 31)
    {stems : List (Stem Float)} {operands : List Float}
    (h : stemOperands version 0 edge stems = .ok operands) : ∀ a ∈ operands, IsExact a := by
  induction stems generalizing edge operands with
  | nil =>
    cases h
    exact nofun
  | cons stem stems ih =>
    obtain ⟨start, hstart, h⟩ := bind_ok.mp h
    obtain ⟨width, hwidth, h⟩ := bind_ok.mp h
    obtain ⟨rest, hrest, h⟩ := bind_ok.mp h
    cases h
    have hstart := isSnapped_coordinate hversion hstart
    have hwidth := isSnapped_coordinate hversion hwidth
    refine List.forall_mem_cons.mpr ⟨fun hself => ?_,
      List.forall_mem_cons.mpr ⟨hwidth.isExact, ih (fun hself => ?_) hrest⟩⟩
    · have hstart := hstart (Double.beq_self_of_sub hself).1
      obtain ⟨hedge, hsmall⟩ := hedge (Double.beq_self_of_sub hself).2
      have := hstart.bound
      rw [abs_lt] at hsmall
      obtain ⟨hgrid, hunits⟩ := hstart.onGrid.1.sub hedge (by omega) (by omega)
      exact ⟨hgrid, by rw [abs_lt]; omega⟩
    · have hstart := hstart (Double.beq_self_of_add hself).1
      have hwidth := hwidth (Double.beq_self_of_add hself).2
      have := hstart.bound
      have := hwidth.bound
      obtain ⟨hgrid, hunits⟩ := hstart.onGrid.1.add hwidth.onGrid.1 (by omega) (by omega)
      exact ⟨hgrid, by rw [abs_lt]; omega⟩

theorem declares_all (hversion : version ≠ .type1) {stems : List (Stem Float)}
    {runs : List (List Float)} (h : Declares version stems runs) :
    ∀ operands ∈ runs, ∀ a ∈ operands, IsExact a := by
  intro operands hmem
  obtain ⟨_, -, hoperands⟩ := exists_of_forall₂ h.operands hmem
  refine stemOperands_all hversion (fun _ => ⟨Scalar.onGrid_zero, ?_⟩) hoperands
  rw [Scalar.units_zero]
  norm_num

-- ---------------------------------------------------------------------------
-- Charstrings
-- ---------------------------------------------------------------------------

theorem isExact_code (code : UInt8) : IsExact (Scalar.ofInt code.toNat) := by
  have hcode := code.toNat_lt
  have hfixed : IsFixed (Scalar.ofInt code.toNat : Float) (64 * (1024 * code.toNat)) := by
    rw [← mul_assoc]
    exact Scalar.isFixed_ofInt (by rw [abs_lt]; omega)
  refine fun _ => ⟨⟨_, hfixed⟩, ?_⟩
  rw [hfixed.units, abs_lt]
  omega

theorem accentedOperands_all (hversion : version ≠ .type1) {accented : Accented Float}
    {operands : List Float} (h : accented.operands version = .ok operands) :
    ∀ a ∈ operands, IsExact a := by
  obtain ⟨dx, dy, hdx, hdy, rfl⟩ := Accented.operands_ok h
  have hdx := isSnapped_coordinate hversion hdx
  have hdy := isSnapped_coordinate hversion hdy
  simp [hdx.isExact, hdy.isExact, isExact_code]

theorem instructionsAll_instructions (hversion : version ≠ .type1) {g : Glyph Float}
    {accented : Option (Accented Float)} {program : List (Instruction Float)}
    (h : instructions g accented version options = .ok program) :
    InstructionsAll IsExact program := by
  obtain ⟨horizontal, vertical, ts, ending, hh, hv, hts, rfl, hending⟩ := instructions_ok h
  have hstems (axis : Axis) {runs : List (List Float)}
      (hdeclares : Declares version (g.hints.declared axis) runs) :
      InstructionsAll IsExact (stemInstructions g axis runs) :=
    List.forall_mem_map.mpr fun operands hmem => declares_all hversion hdeclares operands hmem
  have hcounters : InstructionsAll IsExact (counterInstructions g) := by
    unfold counterInstructions
    split
    · exact List.forall_mem_map.mpr fun _ _ => List.forall_mem_nil _
    · exact instructionsAll_nil
  have hending : InstructionsAll IsExact ending := by
    cases accented with
    | some accented =>
      obtain ⟨operands, hoperands, rfl⟩ := hending
      exact instructionsAll_operation (accentedOperands_all hversion hoperands)
    | none =>
      obtain rfl : ending = endInstructions version := hending
      unfold endInstructions
      split_ifs
      · exact instructionsAll_operation (List.forall_mem_nil _)
      · exact instructionsAll_nil
  have hzero : (default : Point Float).IsSnapped :=
    ⟨fun _ => Scalar.agree_zero, fun _ => Scalar.agree_zero⟩
  simp only [instructionsAll_append]
  exact ⟨⟨⟨⟨hstems .horizontal hh, hstems .vertical hv⟩, hcounters⟩,
    instructionsAll_contours _ _ hzero (traces_snapped hversion hts)⟩, hending⟩

-- ---------------------------------------------------------------------------
-- Widths
-- ---------------------------------------------------------------------------

theorem reread_short (hversion : version ≠ .type1) {a : Float} {q : ℚ} (ha : StandsFor a q)
    (h : (Operand.short? version a).isSome = true) :
    StandsFor (Operand.reread version a) q ∧ -32768 ≤ q ∧ q < 32768 := by
  have hreread : Operand.reread version a = Scalar.ofInt (Scalar.toInt32 a) := by
    simp only [Operand.reread, Operand.held, hversion, if_false, false_or, if_pos h]
  unfold Operand.short? at h
  split_ifs at h with hwhole
  · have hn := Double.standsFor_of_isWhole ha hwhole
    have hq := ha.unique hn
    have hfixed : IsFixed a (65536 * ⌊q⌋) := Scalar.isFixed_whole.mpr hn
    rw [hfixed.toInt32_saturated] at h hreread
    generalize ⌊q⌋ = n at hq h hreread
    obtain ⟨hlow, hhigh⟩ := Operand.shortForm?_mem h
    rw [show max (-0x80000000) (min 0x7fffffff n) = n by omega] at hreread
    rw [hreread, hq]
    refine ⟨Double.standsFor_ofInt (by rw [abs_lt]; omega), ?_, ?_⟩
    · exact_mod_cast (show -32768 ≤ n by omega)
    · exact_mod_cast (show n < 32768 by omega)
  · cases h

/-- Any finite double comes back to within 1/65536 exactly if it is so close to the range. -/
theorem exists_reread_near_iff (hversion : version ≠ .type1) {a : Float} {q : ℚ}
    (ha : StandsFor a q) :
    ∃ r, StandsFor (Operand.reread version a) r ∧
      (|r - q| < 1 / 65536 ↔ -32768 - 1 / 65536 < q ∧ q < 32768) := by
  by_cases h : (Operand.short? version a).isSome = true
  · obtain ⟨hr, hlow, hhigh⟩ := reread_short hversion ha h
    refine ⟨q, hr, iff_of_true ?_ ⟨by linarith, hhigh⟩⟩
    rw [sub_self, abs_zero]
    norm_num
  · have hreread : Operand.reread version a = Scalar.ofFixed (Scalar.toFixed a) := by
      simp only [Operand.reread, Operand.held, hversion, if_false, false_or, if_neg h]
    have hmem : -0x80000000 ≤ Scalar.toFixed a ∧ Scalar.toFixed a ≤ 0x7fffffff :=
      LawfulScalar.truncate_mem (by norm_num)
    have hr : IsFixed (Scalar.ofFixed (Scalar.toFixed a) : Float) (Scalar.toFixed a) :=
      Scalar.isFixed_ofFixed (by rw [abs_lt]; omega)
    refine ⟨Scalar.toFixed a / 65536, hreread ▸ hr, ?_⟩
    have hunits : |(Scalar.toFixed a / 65536 - q : ℚ)| < 1 / 65536 ↔
        |(Scalar.toFixed a : ℚ) - q * 2 ^ 16| < 1 := by
      rw [abs_lt, abs_lt]
      constructor <;> rintro ⟨hlow, hhigh⟩ <;> constructor <;> linarith
    rw [hunits, Double.toFixed_near_iff ha]
    norm_num
    constructor <;> rintro ⟨hlow, hhigh⟩ <;> constructor <;> linarith

example : Operand.write .type2 (60000 : Float) = [255, 127, 255, 255, 255] ∧
    Operand.reread .type2 (60000 : Float) = 32768 - 1 / 65536 := by decide +kernel

theorem toBytes_widthOperand {ctx : Context Float} {g : Glyph Float}
    {accented : Option (Accented Float)} {program : List (Instruction Float)}
    (h : instructions g accented ctx.version options = .ok program) :
    (Instruction.withWidth (widthOperand ctx g) program).flatMap (·.toBytes ctx.version) =
      (widthOperand ctx g).elim [] (Operand.write ctx.version) ++
        program.flatMap (·.toBytes ctx.version) := by
  by_cases htype2 : ctx.version = .type2
  · rw [htype2] at h ⊢
    exact toBytes_withWidth (begins_instructions h) _
  · rw [widthOperand, if_neg htype2]
    rfl

/-- What the operands of a charstring of Type 2 or CFF2 are read as. All of them, the width before
the program and the depths of flexes included, come back close to what they were written for exactly
if that is close to the range from -32768 to 32768. Those that are differences of coordinates and of
stems come back as they were exactly if they lie in this range. -/
theorem operands_return_iff {ctx : Context Float} {options : EncodeOptions Float} {g : Glyph Float}
    (hversion : ctx.version ≠ .type1) {bytes : List UInt8} (h : encode ctx options g = .ok bytes) :
    ∃ accented program, Accented.ofGlyph (written g) = .ok accented ∧
      instructions (written g) accented ctx.version options = .ok program ∧
      bytes = (widthOperand ctx (written g)).elim [] (Operand.write ctx.version) ++
        program.flatMap (·.toBytes ctx.version) ∧
      (∀ a ∈ (widthOperand ctx (written g)).toList ++ program.flatMap (·.operands), ∀ q,
        StandsFor a q →
          ∃ b r, Operand.Encodes ctx.version (Operand.write ctx.version a) b ∧ StandsFor b r ∧
            (|r - q| < 1 / 65536 ↔ -32768 - 1 / 65536 < q ∧ q < 32768)) ∧
      ∀ i ∈ program, ∀ a ∈ i.differences,
        ∃ b, Operand.Encodes ctx.version (Operand.write ctx.version a) b ∧
          ((b == a) = true ↔ -32768 ≤ a ∧ a < 32768) := by
  rw [encode_bind hversion, bind_ok] at h
  obtain ⟨accented, haccented, h⟩ := h
  obtain ⟨program, hprogram, h⟩ := bind_ok.mp h
  refine ⟨accented, program, haccented, hprogram, ?_, ?_, ?_⟩
  · rw [← toBytes_widthOperand hprogram]
    exact (pure_ok.mp h).symm
  · intro a _ q hq
    obtain ⟨r, hr, hiff⟩ := exists_reread_near_iff hversion hq
    exact ⟨_, r, Operand.encodes_write ctx.version a, hr, hiff⟩
  · intro i hi a ha
    have hexact := instructionsAll_instructions hversion hprogram i hi a ha
    exact ⟨_, Operand.encodes_write ctx.version a, reread_exact_beq_iff hversion hexact⟩

/-- A triangle whose base is 60000 wide. -/
def broadTriangle : Glyph Float :=
  let b : Builder Float := ({} : Builder Float).moveTo ⟨-30000, 0⟩
  { Glyph.empty .postscript with
    figures := [((b.lineTo ⟨30000, 0⟩).lineTo ⟨0, 500⟩).close.finish] }

def broadCode : List UInt8 :=
  [28, 138, 208, 22, 255, 127, 255, 255, 255, 6, 28, 138, 208, 248, 136, 5, 14]

theorem encode_broadTriangle :
    encode ({} : Context Float) default broadTriangle = .ok broadCode :=
  ok_of_toOption (by decide +kernel)

/-- The same triangle with an advance width that is written as the largest number too. -/
def wideTriangle : Glyph Float := { broadTriangle with advanceWidth := 70000 }

def wideCode : List UInt8 := [255, 127, 255, 255, 255] ++ broadCode

theorem encode_wideTriangle :
    encode ({} : Context Float) default wideTriangle = .ok wideCode :=
  ok_of_toOption (by decide +kernel)

theorem operands_return_iff_wideTriangle :
    ∃ accented program, Accented.ofGlyph (written wideTriangle) = .ok accented ∧
      instructions (written wideTriangle) accented .type2 default = .ok program ∧
      wideCode =
        (widthOperand ({} : Context Float) (written wideTriangle)).elim [] (Operand.write .type2) ++
          program.flatMap (·.toBytes .type2) ∧
      (∀ a ∈ (widthOperand ({} : Context Float) (written wideTriangle)).toList ++
          program.flatMap (·.operands), ∀ q,
        StandsFor a q →
          ∃ b r, Operand.Encodes .type2 (Operand.write .type2 a) b ∧ StandsFor b r ∧
            (|r - q| < 1 / 65536 ↔ -32768 - 1 / 65536 < q ∧ q < 32768)) ∧
      ∀ i ∈ program, ∀ a ∈ i.differences,
        ∃ b, Operand.Encodes .type2 (Operand.write .type2 a) b ∧
          ((b == a) = true ↔ -32768 ≤ a ∧ a < 32768) :=
  operands_return_iff (by decide) encode_wideTriangle

/-- The base comes back as the longest line that there is, and the apex as far off. -/
theorem decode_encode_broadTriangle : ∃ bytes,
    encode ({} : Context Float) default broadTriangle = .ok bytes ∧
      ((decode ({} : Context Float) bytes).glyph.figures.flatMap (·.points) ==
        [⟨-30000, 0⟩, ⟨2768, 0⟩, ⟨-27232, 500⟩]) = true := by
  have hrun : Machine.Executes ({} : Context Float) callLimit broadCode (Machine.start {}) _ :=
    .goesOn rfl rfl <| .goesOn rfl rfl <| .goesOn rfl rfl <| .goesOn rfl rfl <|
      .goesOn rfl rfl <| .goesOn rfl rfl <| .goesOn rfl rfl <| .ends rfl rfl
  refine ⟨broadCode, encode_broadTriangle, ?_⟩
  rw [decode, hrun.run_eq]
  decide +kernel

end Charstring

end Letterform
