import Letterform.Proofs.Charstring.Masks

/-!
# Contours come back from their instructions

The instructions of the contours of a glyph are executed one after another. Whatever follows them is
executed by a machine that has drawn these contours and has changed in nothing else.
-/

namespace Letterform.Charstring

open Scalar (Agree)

variable {α : Type} [Scalar α]

theorem PathOperator.isKnownTo_of_ne {version : Version} (h : version ≠ .type1)
    (op : PathOperator) : op.isKnownTo version = true := by
  cases op <;> simp [PathOperator.isKnownTo, h]

variable {ctx : Context α} {m : Machine α} (levels : ℕ)

namespace Machine

variable [LawfulScalar α]

theorem run_command (hready : m.Ready ctx) {c : Command α}
    (hknown : c.op.isKnownTo ctx.version = true)
    (hroom : c.operands.length ≤ ctx.version.stackLimit)
    (hsteps : c.op.steps (c.operands.map (Operand.reread ctx.version)) ≠ []) (tail : List UInt8) :
    m.run ctx levels ((Instruction.ofCommand c).toBytes ctx.version ++ tail) =
      ((c.op.steps (c.operands.map (Operand.reread ctx.version))).foldl draw m).run ctx levels
        tail := by
  have hpath : (Operator.path c.op).isKnownTo ctx.version = true := hknown
  rw [Instruction.ofCommand, run_operation ctx levels hpath rfl c.operands tail m
    (by rw [hready.size, hready.limit]; omega)]
  have hoperands := hready.operands_load (c.operands.map (Operand.reread ctx.version))
  have heval : (m.load (c.operands.map (Operand.reread ctx.version))).evaluate ctx (.path c.op) =
      .ok ((c.op.steps (c.operands.map (Operand.reread ctx.version))).foldl draw m) := by
    show drawPath _ _ = _
    unfold drawPath
    rw [hoperands]
    generalize c.op.steps (c.operands.map (Operand.reread ctx.version)) = steps at hsteps ⊢
    cases steps with
    | nil => exact absurd rfl hsteps
    | cons s rest =>
      dsimp only
      rw [load, foldl_draw_withStack, ((drawsOnly_foldl m _).ready hready).clear_withStack]
      exact hready.limit.trans ((drawsOnly_foldl m _).ready hready).limit.symm
  rw [heval]
  rfl

end Machine

-- ---------------------------------------------------------------------------
-- Runs
-- ---------------------------------------------------------------------------

variable [LawfulScalar α]

omit [LawfulScalar α] in
theorem runs_window (options : EncodeOptions α) (limit : ℕ) (declared : Option (List ℕ))
    (leg : Leg α) (rest : List (Leg α)) :
    runs options limit declared (leg :: rest) =
      let window := leg :: (rest.take limit).takeWhile fun l => declared.isNone || l.mask.isNone
      let command := (Command.choose options limit window).getD (.ofStep leg.step)
      maskBefore declared leg.mask ++
        .ofCommand command :: runs options limit declared (rest.drop (command.count - 1)) := by
  rw [runs.eq_def]
  rfl

omit [LawfulScalar α] in
/-- A run is chosen for the first of some legs and for those after it that bring no mask that is
written. -/
theorem runs_choose (options : EncodeOptions α) (limit : ℕ) (declared : Option (List ℕ))
    (leg : Leg α) (legs : List (Leg α)) :
    ∃ window c, window <+: legs ∧ (∀ l ∈ window, declared = none ∨ l.mask = none) ∧
      Command.choose options limit (leg :: window) = some c ∧
      runs options limit declared (leg :: legs) = maskBefore declared leg.mask ++
        .ofCommand c :: runs options limit declared (legs.drop (c.count - 1)) := by
  obtain ⟨c, hc⟩ := Option.isSome_iff_exists.mp (Command.choose_isSome options limit leg
    ((legs.take limit).takeWhile fun l => declared.isNone || l.mask.isNone))
  refine ⟨_, c, (List.takeWhile_prefix _).trans (List.take_prefix _ _), fun l hl => ?_, hc, ?_⟩
  · simpa using List.mem_takeWhile_imp hl
  · rw [runs_window]
    dsimp only
    rw [hc]
    rfl

/-- The first run of some legs draws as many of them as it stands for. None of these but the first
brings a mask that is written. -/
theorem runs_cons (options : EncodeOptions α) {limit : ℕ} (hlimit : 13 ≤ limit)
    (declared : Option (List ℕ)) {r : α → α} {p : Point α} {leg : Leg α} {legs : List (Leg α)}
    (hfollow : Follow r p (leg :: legs)) :
    ∃ c k, runs options limit declared (leg :: legs) =
        maskBefore declared leg.mask ++ .ofCommand c :: runs options limit declared (legs.drop k) ∧
      c.operands.length ≤ limit ∧
      List.Forall₂ PathStep.Agree ((leg :: legs.take k).map Leg.step)
        (c.op.steps (c.operands.map r)) ∧
      ∀ l ∈ legs.take k, declared = none ∨ l.mask = none := by
  obtain ⟨window, c, ⟨after, rfl⟩, hwindow, hc, hruns⟩ :=
    runs_choose options limit declared leg legs
  have hfirst : Follow r p (leg :: window) := by
    rw [← List.cons_append, follow_append] at hfollow
    exact hfollow.1
  have hfits := Command.choose_fits options hlimit hfirst.kept hfirst.linked hc
  obtain ⟨k, hk⟩ : ∃ k, c.groups.length = k + 1 := Nat.exists_eq_succ_of_ne_zero hfits.pos.ne'
  have hle := hfits.covers.length_le
  rw [List.length_map, List.length_cons, hk] at hle
  have htake : (window ++ after).take k = window.take k :=
    List.take_append_of_le_length (Nat.le_of_succ_le_succ hle)
  have hdraws := hfits.covers.draws
  rw [hk, ← List.map_take, List.take_succ_cons, ← htake] at hdraws
  refine ⟨c, k, ?_, hfits.operands_le, hdraws, fun l hl => hwindow l ?_⟩
  · rw [hruns, Command.count, hk, Nat.add_sub_cancel]
  · rw [htake] at hl
    exact List.mem_of_mem_take hl

omit [LawfulScalar α] in
theorem contours_cons (options : EncodeOptions α) (limit : ℕ) (declared : Option (List ℕ))
    (position : Point α) (t : Trace α) (traces : List (Trace α)) :
    contours options limit declared position (t :: traces) = maskBefore declared t.mask ++
      .move position t.start :: runs options limit declared t.legs ++
        contours options limit declared t.stop traces := by
  rw [contours.eq_def]
  rfl

namespace Machine

variable {options : EncodeOptions α} {declared : Option (List ℕ)} {masked : Prop}
  {masks : HintMask → Option HintMask}
  {b : Builder α} {p : Point α}

theorem run_run (hversion : ctx.version ≠ .type1) (hready : m.Ready ctx) (h : m.Drawn masked b p)
    (hmasks : masked → masks = m.conveyed ctx declared) {c : Command α} {leg : Leg α}
    {legs : List (Leg α)}
    (hfits : MasksFit (m.hintCount ctx) (maskBefore (α := α) declared leg.mask))
    (hfollow : Follow (Operand.reread ctx.version) p (leg :: legs))
    (hroom : c.operands.length ≤ ctx.version.stackLimit)
    (hdraws : List.Forall₂ PathStep.Agree ((leg :: legs).map Leg.step)
      (c.op.steps (c.operands.map (Operand.reread ctx.version))))
    (hnone : ∀ l ∈ legs, declared = none ∨ l.mask = none) (tail : List UInt8) :
    ∃ m' : Machine α,
      m.run ctx levels ((maskBefore (α := α) declared leg.mask).flatMap (·.toBytes ctx.version) ++
          ((Instruction.ofCommand c).toBytes ctx.version ++ tail)) = m'.run ctx levels tail ∧
      DrawsOnly m m' ∧
      m'.Drawn masked ((leg :: legs).foldl (Leg.draw masks) b) (endOf p (leg :: legs)) := by
  obtain ⟨m1, hrun, honly, hbuilder, hposition, hpending⟩ := run_maskBefore levels hversion hready
    h.pending hfits ((Instruction.ofCommand c).toBytes ctx.version ++ tail)
  have hmask (hm : masked) : m1.pendingMask = leg.mask.bind masks := by rw [hpending, hmasks hm]
  have hothers (hm : masked) (l : Leg α) (hl : l ∈ legs) : l.mask.bind masks = none := by
    rcases hnone l hl with hd | hl
    · rw [hmasks hm, hd]
      cases l.mask <;> rfl
    · rw [hl]
      rfl
  have hdrawn := run_agrees (hbuilder ▸ h.builder) (hposition ▸ h.position) hmask hfollow hdraws
    hothers
  have hsteps : c.op.steps (c.operands.map (Operand.reread ctx.version)) ≠ [] := by
    intro hnil
    rw [hnil] at hdraws
    cases hdraws
  refine ⟨_, ?_, honly.trans (drawsOnly_foldl m1 _), hdrawn⟩
  rw [hrun, run_command levels (honly.ready hready) (c.op.isKnownTo_of_ne hversion) hroom hsteps]

theorem run_runs (hversion : ctx.version ≠ .type1) (hready : m.Ready ctx) (h : m.Drawn masked b p)
    (hmasks : masked → masks = m.conveyed ctx declared) {legs : List (Leg α)}
    (hfits : MasksFit (m.hintCount ctx) (runs options ctx.version.stackLimit declared legs))
    (hfollow : Follow (Operand.reread ctx.version) p legs) (tail : List UInt8) :
    ∃ m' : Machine α,
      m.run ctx levels ((runs options ctx.version.stackLimit declared legs).flatMap
          (·.toBytes ctx.version) ++ tail) = m'.run ctx levels tail ∧
      DrawsOnly m m' ∧ m'.Drawn masked (legs.foldl (Leg.draw masks) b) (endOf p legs) := by
  induction hlength : legs.length using Nat.strong_induction_on generalizing legs m b p with
  | _ n ih =>
    subst hlength
    rcases legs with _ | ⟨leg, legs⟩
    · exact ⟨m, by rw [runs]; rfl, .refl m, h⟩
    obtain ⟨c, k, hruns, hroom, hdraws, hnone⟩ :=
      runs_cons options ctx.version.le_stackLimit declared hfollow
    have hsplit : leg :: legs = (leg :: legs.take k) ++ legs.drop k := by
      rw [List.cons_append, List.take_append_drop]
    rw [hsplit, follow_append] at hfollow
    rw [hruns] at hfits
    obtain ⟨hfitsFirst, hfitsRest⟩ := masksFit_append.mp hfits
    obtain ⟨m1, hrun1, honly1, hdrawn1⟩ := run_run levels hversion hready h hmasks hfitsFirst
      hfollow.1 hroom hdraws hnone ((runs options ctx.version.stackLimit declared (legs.drop k)).flatMap
        (·.toBytes ctx.version) ++ tail)
    obtain ⟨m2, hrun2, honly2, hdrawn2⟩ := ih _ (by simp) (honly1.ready hready) hdrawn1
      (fun hm => (hmasks hm).trans (honly1.conveyed declared).symm)
      (honly1.hintCount ▸ (masksFit_operation _ _).mp hfitsRest) hfollow.2 rfl
    refine ⟨m2, ?_, honly1.trans honly2, ?_⟩
    · rw [hruns, List.flatMap_append, List.flatMap_cons, List.append_assoc, List.append_assoc,
        hrun1, hrun2]
    · rwa [hsplit, List.foldl_append, endOf_append]

-- ---------------------------------------------------------------------------
-- Contours
-- ---------------------------------------------------------------------------

def moved (m : Machine α) (dx dy : α) : Machine α :=
  { m with
    position := displaced m.position dx dy
    builder := (m.builder.moveTo (displaced m.position dx dy)).mark m.pendingMask
    widthTaken := true
    pendingMask := none
    replacingHints := false }

omit [LawfulScalar α] in
theorem drawsOnly_moved (m : Machine α) (dx dy : α) : DrawsOnly m (m.moved dx dy) :=
  ⟨_, _, _, _, true, by rw [Bool.or_true]; rfl⟩

omit [LawfulScalar α] in
theorem clear_moveTo (hready : m.Ready ctx) (operands : List α) (dx dy : α) :
    ((m.settled.load operands).moveTo dx dy).clear = m.moved dx dy := by
  have hflex : (m.settled.load operands).flex = none := hready.flex
  rw [moveTo_eq hflex]
  exact ((drawsOnly_moved m dx dy).ready hready).clear_withStack rfl

omit [LawfulScalar α] in
theorem evaluate_rmoveto (hready : m.Ready ctx) (dx dy : α) :
    (m.load [dx, dy]).evaluate ctx .rmoveto = .ok (m.moved dx dy) := by
  simp only [evaluate, hready.takeWidth_load, hready.settled.operands_load, clear_moveTo hready]

omit [LawfulScalar α] in
theorem evaluate_hmoveto (hready : m.Ready ctx) (dx : α) :
    (m.load [dx]).evaluate ctx .hmoveto = .ok (m.moved dx 0) := by
  simp only [evaluate, hready.takeWidth_load, hready.settled.operands_load, clear_moveTo hready]

omit [LawfulScalar α] in
theorem evaluate_vmoveto (hready : m.Ready ctx) (dy : α) :
    (m.load [dy]).evaluate ctx .vmoveto = .ok (m.moved 0 dy) := by
  simp only [evaluate, hready.takeWidth_load, hready.settled.operands_load, clear_moveTo hready]

theorem run_move (hready : m.Ready ctx) {q : Point α}
    (hx : Agree (q.x - p.x) (Operand.reread ctx.version (q.x - p.x)))
    (hy : Agree (q.y - p.y) (Operand.reread ctx.version (q.y - p.y))) (tail : List UInt8) :
    ∃ dx dy, Agree (q.x - p.x) dx ∧ Agree (q.y - p.y) dy ∧
      m.run ctx levels ((Instruction.move p q).toBytes ctx.version ++ tail) =
        (m.moved dx dy).run ctx levels tail := by
  have hlimit := ctx.version.le_stackLimit
  have hrun {op : Operator} (operands : List α) (hknown : op.isKnownTo ctx.version = true)
      (hplain : op.isPlain = true) (hsize : operands.length ≤ 13) :=
    run_operation ctx levels hknown hplain operands tail m
      (by rw [hready.size, hready.limit]; omega)
  unfold Instruction.move
  dsimp only
  split_ifs with hzero hzero'
  · refine ⟨_, _, hx, hy.to_zero hzero, ?_⟩
    rw [hrun [_] rfl rfl (by simp), List.map_singleton, evaluate_hmoveto hready]
    rfl
  · refine ⟨_, _, hx.to_zero hzero', hy, ?_⟩
    rw [hrun [_] rfl rfl (by simp), List.map_singleton, evaluate_vmoveto hready]
    rfl
  · refine ⟨_, _, hx, hy, ?_⟩
    rw [hrun [_, _] rfl rfl (by simp), List.map_cons, List.map_singleton, evaluate_rmoveto hready]
    rfl

theorem run_contour (hversion : ctx.version ≠ .type1) (hready : m.Ready ctx)
    (h : m.Drawn masked b p) (hp : p.Agree p)
    (hmasks : masked → masks = m.conveyed ctx declared) {t : Trace α}
    (hfits : MasksFit (m.hintCount ctx) (maskBefore declared t.mask ++ .move p t.start ::
      runs options ctx.version.stackLimit declared t.legs))
    (ht : t.Kept (Operand.reread ctx.version) p) (tail : List UInt8) :
    ∃ m' : Machine α,
      m.run ctx levels ((maskBefore declared t.mask ++ .move p t.start ::
          runs options ctx.version.stackLimit declared t.legs : List (Instruction α)).flatMap
            (·.toBytes ctx.version) ++ tail) = m'.run ctx levels tail ∧
      DrawsOnly m m' ∧ m'.Drawn masked (t.draw masks b) t.stop := by
  obtain ⟨hstart, hx, hy, hlegs⟩ := ht
  obtain ⟨hfitsFirst, hfitsRest⟩ := masksFit_append.mp hfits
  rw [masksFit_move] at hfitsRest
  obtain ⟨m1, hrun1, honly1, hbuilder, hposition, hpending⟩ := run_maskBefore levels hversion hready
    h.pending hfitsFirst ((Instruction.move p t.start).toBytes ctx.version ++
      ((runs options ctx.version.stackLimit declared t.legs).flatMap (·.toBytes ctx.version) ++ tail))
  obtain ⟨dx, dy, hdx, hdy, hrun2⟩ := run_move levels (honly1.ready hready) hx hy
    ((runs options ctx.version.stackLimit declared t.legs).flatMap (·.toBytes ctx.version) ++ tail)
  have honly2 := honly1.trans (drawsOnly_moved m1 dx dy)
  have hdisplaced : (displaced m1.position dx dy).Agree t.start :=
    displaced_agrees (hposition ▸ h.position) hp hstart hdx hdy
  have hmask (hm : masked) : m1.pendingMask = t.mask.bind masks := by rw [hpending, hmasks hm]
  have hmoved := mark_agree ((hbuilder ▸ h.builder).moveTo hdisplaced) hmask
  have hdrawn : (m1.moved dx dy).Drawn masked ((b.moveTo t.start).mark (t.mask.bind masks))
      t.start := ⟨hmoved, hdisplaced, rfl⟩
  obtain ⟨m3, hrun3, honly3, hdrawn3⟩ := run_runs levels hversion (honly2.ready hready) hdrawn
    (fun hm => (hmasks hm).trans (honly2.conveyed declared).symm)
    (honly2.hintCount ▸ hfitsRest) hlegs tail
  refine ⟨m3, ?_, honly2.trans honly3, t.stop_eq ▸ hdrawn3⟩
  rw [List.flatMap_append, List.flatMap_cons, List.append_assoc, List.append_assoc, hrun1, hrun2,
    hrun3]

theorem run_contours (options : EncodeOptions α) (hversion : ctx.version ≠ .type1) (hready : m.Ready ctx)
    (h : m.Drawn masked b p) (hp : p.Agree p)
    (hmasks : masked → masks = m.conveyed ctx declared) {traces : List (Trace α)}
    (hfits : MasksFit (m.hintCount ctx)
      (contours options ctx.version.stackLimit declared p traces))
    (hfollow : TracesFollow (Operand.reread ctx.version) p traces) (tail : List UInt8) :
    ∃ m' : Machine α,
      m.run ctx levels ((contours options ctx.version.stackLimit declared p traces).flatMap
          (·.toBytes ctx.version) ++ tail) = m'.run ctx levels tail ∧
      DrawsOnly m m' ∧ m'.builder.Agree masked (traces.foldl (Trace.draw masks) b) := by
  induction traces generalizing m b p with
  | nil => exact ⟨m, rfl, .refl m, h.builder⟩
  | cons t traces ih =>
    obtain ⟨ht, htraces⟩ := hfollow
    rw [contours_cons] at hfits
    obtain ⟨hfitsFirst, hfitsRest⟩ := masksFit_append.mp hfits
    have hstop : t.stop.Agree t.stop := t.stop_eq ▸ agree_endOf ht.legs ht.start
    obtain ⟨m1, hrun1, honly1, hdrawn1⟩ := run_contour levels hversion hready h hp hmasks
      hfitsFirst ht ((contours options ctx.version.stackLimit declared t.stop traces).flatMap
        (·.toBytes ctx.version) ++ tail)
    obtain ⟨m2, hrun2, honly2, hbuilder2⟩ := ih (honly1.ready hready) hdrawn1 hstop
      (fun hm => (hmasks hm).trans (honly1.conveyed declared).symm)
      (honly1.hintCount ▸ hfitsRest) htraces
    refine ⟨m2, ?_, honly1.trans honly2, hbuilder2⟩
    rw [contours_cons, List.flatMap_append, List.append_assoc, hrun1, hrun2]

end Machine

end Letterform.Charstring
