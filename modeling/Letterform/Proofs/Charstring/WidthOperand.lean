import Letterform.Proofs.Charstring.Bottom
import Letterform.Proofs.Charstring.WidthRoundTrip

/-!
# A width in front of any code

The width of a Type 2 charstring may stand in front of code that first computes its operands, also
in subroutines. It then lies at the bottom of the stack until the first operator clears the stack,
and that operator tells by the number of operands that there is a width below them.
-/

namespace Letterform.Charstring

variable {α : Type} [Scalar α] {ctx : Context α}

-- ---------------------------------------------------------------------------
-- The same end in step
-- ---------------------------------------------------------------------------

namespace Configuration

variable {c c' : Configuration α} {x y : Outcome α (Machine α)}
  {R : Machine α → Machine α → Prop}

theorem rightUnique_next (ctx : Context α) :
    Relator.RightUnique fun c c' : Configuration α => c.next ctx = some (.ok c') := by
  intro c c1 c2 h1 h2
  cases h1.symm.trans h2
  rfl

theorem EndsWith.of_reaches (h : EndsWith ctx c x) (hreaches : Reaches ctx c c') :
    EndsWith ctx c' x := by
  obtain ⟨last, hlast, hend⟩ := h
  refine ⟨last, ?_, hend⟩
  rcases hlast.total_of_right_unique (rightUnique_next ctx) hreaches with hback | hon
  · -- The last configuration has no successor.
    rcases hback.cases_head with rfl | ⟨c'', hnext, -⟩
    · exact .refl
    · rcases hend with ⟨hnone, -⟩ | ⟨halt, hhalt, -⟩
      · cases hnone.symm.trans hnext
      · cases hhalt.symm.trans hnext
  · exact hon

theorem EndsWith.unique (h : EndsWith ctx c x) (h' : EndsWith ctx c y) : x = y := by
  obtain ⟨last, hlast, hend⟩ := h
  obtain ⟨last', hlast', hend'⟩ := h'.of_reaches hlast
  rcases hlast'.cases_head with rfl | ⟨c'', hnext, -⟩
  · rcases hend with ⟨hnone, rfl⟩ | ⟨halt, hhalt, rfl⟩ <;>
      rcases hend' with ⟨hnone', rfl⟩ | ⟨halt', hhalt', rfl⟩
    · rfl
    · cases hnone.symm.trans hhalt'
    · cases hhalt.symm.trans hnone'
    · cases hhalt.symm.trans hhalt'
      rfl
  · rcases hend with ⟨hnone, -⟩ | ⟨halt, hhalt, -⟩
    · cases hnone.symm.trans hnext
    · cases hhalt.symm.trans hnext

theorem inStep_next (hR : Machine.Lockstep ctx R) (frames : List (List UInt8)) {m m' : Machine α}
    (h : R m m') :
    Option.Rel (Machine.InStep R (Machine.Beside R Configuration.machine Configuration.frames))
      (next ctx ⟨frames, m⟩) (next ctx ⟨frames, m'⟩) := by
  rcases frames with _ | ⟨_ | ⟨b, code⟩, outer⟩
  · exact .none
  · exact .some (.ok ⟨h, rfl⟩)
  · rcases hread : Token.read (α := α) ctx.version b code with e | ⟨t, rest⟩
    · rw [next_of_read_error hread, next_of_read_error hread]
      exact .some (.error h)
    · cases hcall : callOf? ctx t with
      | none =>
        rw [next_of_not_call hread hcall, next_of_not_call hread hcall]
        refine .some ((hR.execute (hR.call_of_run (by simp) h) h t rest).map ?_)
        rintro ⟨⟨m, ending⟩, rest⟩ ⟨⟨m', ending'⟩, rest'⟩ ⟨h, heq⟩
        obtain ⟨rfl, rfl⟩ := Prod.mk.inj heq
        rcases ending with _ | _ | _ <;> exact ⟨h, rfl⟩
      | some isGlobal =>
        rw [next_of_call hread hcall, next_of_call hread hcall]
        refine .some ((hR.popInt h).bind ?_)
        rintro ⟨index, m⟩ ⟨index', m'⟩ ⟨h, rfl⟩
        dsimp only
        split_ifs
        · exact .ok ⟨hR.report _ h, rfl⟩
        all_goals
          split
          · exact .ok ⟨hR.report _ h, rfl⟩
          · exact .ok ⟨h, rfl⟩

theorem EndsWith.inStep (h : EndsWith ctx c x) (hR : Machine.Lockstep ctx R) {m : Machine α}
    (hm : R c.machine m) :
    ∃ y, EndsWith ctx ⟨c.frames, m⟩ y ∧ Machine.InStep R R x y := by
  obtain ⟨last, hlast, hend⟩ := h
  induction hlast using Relation.ReflTransGen.head_induction_on generalizing m with
  | refl =>
    have hstep := inStep_next hR last.frames hm
    rcases hend with ⟨hnone, rfl⟩ | ⟨halt, hhalt, rfl⟩
    · rw [hnone] at hstep
      generalize hnext : next ctx ⟨last.frames, m⟩ = n at hstep
      cases hstep
      exact ⟨_, ⟨_, .refl, .inl ⟨hnext, rfl⟩⟩, .ok hm⟩
    · rw [hhalt] at hstep
      generalize hnext : next ctx ⟨last.frames, m⟩ = n at hstep
      rcases hstep with ⟨⟨⟩ | herror⟩ | _
      exact ⟨_, ⟨_, .refl, .inr ⟨_, hnext, rfl⟩⟩, .error herror⟩
  | @head c c1 hnext _ ih =>
    have hstep := inStep_next hR c.frames hm
    rw [hnext] at hstep
    generalize hnext' : next ctx ⟨c.frames, m⟩ = n at hstep
    rcases hstep with ⟨hok | _⟩ | _
    obtain ⟨hmachine, hframes⟩ := hok
    obtain ⟨y, ⟨last', hlast', hend'⟩, hy⟩ := ih hmachine
    refine ⟨y, ⟨last', .head hnext' ?_, hend'⟩, hy⟩
    rwa [hframes] at hlast'

end Configuration

-- ---------------------------------------------------------------------------
-- The operator that takes the width
-- ---------------------------------------------------------------------------

/-- Whether so many operands are all that an operator takes which may come first. -/
def Operator.isComplete : Operator → ℕ → Bool
  | .stems _ _, n | .mask _, n => 0 < n && n % 2 == 0
  | .rmoveto, n => n == 2
  | .hmoveto, n | .vmoveto, n => n == 1
  | .endchar, n => n == 0 || n == 4
  | _, _ => false

namespace Machine

variable {m : Machine α} {op : Operator}

omit [Scalar α] in
theorem size_stack_onto (m : Machine α) (w : α) : (m.onto w).stack.size = m.stack.size + 1 :=
  m.stack.size_onto w

theorem takeWidth_onto (hversion : ctx.version = .type2) (htaken : m.widthTaken = false) (w : α) :
    AlikeButWidth (ctx.privateDict.nominalWidthX + w) (m.takeWidth ctx false)
      ((m.onto w).takeWidth ctx true) := by
  rw [takeWidth_false]
  refine ⟨rfl, ?_⟩
  obtain ⟨⟨⟨values, limit⟩, storage, generator⟩, builder, glyph, diagnostics, position, taken⟩ := m
  obtain rfl : taken = false := htaken
  unfold takeWidth
  simp [onto, Stack.onto, withStack, stack, withAdvance, settled, hversion]

theorem takeWidth_hasWidth (hversion : ctx.version = .type2) (htaken : m.widthTaken = false) (w : α)
    (hnone : op.hasWidth m.stack.size = false) (hsome : op.hasWidth (m.stack.size + 1) = true) :
    AlikeButWidth (ctx.privateDict.nominalWidthX + w)
      (m.takeWidth ctx (op.hasWidth m.stack.size))
      ((m.onto w).takeWidth ctx (op.hasWidth (m.onto w).stack.size)) := by
  rw [size_stack_onto, hnone, hsome]
  exact takeWidth_onto hversion htaken w

theorem evaluate_complete (hversion : ctx.version = .type2) (htaken : m.widthTaken = false) (w : α)
    (hcarries : op.carriesWidth = true) (hplain : op.isPlain = true)
    (hknown : op.isKnownTo ctx.version = true) (hcomplete : op.isComplete m.stack.size = true) :
    InStep (AlikeButWidth (ctx.privateDict.nominalWidthX + w))
      (AlikeButWidth (ctx.privateDict.nominalWidthX + w)) (m.evaluate ctx op)
      ((m.onto w).evaluate ctx op) := by
  rw [← evaluate_takeWidth hcarries hplain, ← evaluate_takeWidth (m := m.onto w) hcarries hplain]
  refine (takeWidth_hasWidth hversion htaken w ?_ ?_).evaluate hversion hknown
  all_goals
    generalize m.stack.size = n at hcomplete
    cases op with
    | stems | rmoveto | hmoveto | vmoveto =>
      simp [Operator.isComplete, Operator.hasWidth] at hcomplete ⊢
      omega
    | endchar => cases hplain
    | _ => cases hcarries

theorem endCharacter_complete (hversion : ctx.version = .type2) (htaken : m.widthTaken = false)
    (w : α) (hcomplete : Operator.endchar.isComplete m.stack.size = true) :
    AlikeButWidth (ctx.privateDict.nominalWidthX + w) (m.endCharacter ctx)
      ((m.onto w).endCharacter ctx) := by
  rw [← endCharacter_takeWidth hversion, ← endCharacter_takeWidth (m := m.onto w) hversion]
  refine (takeWidth_hasWidth hversion htaken w ?_ ?_).endCharacter
  all_goals
    generalize m.stack.size = n at hcomplete
    simp [Operator.isComplete, Operator.hasWidth] at hcomplete ⊢
    omega

theorem prepareMask_takeWidth (hsome : m.stack.values ≠ [])
    (hleft : (m.takeWidth ctx (m.stack.size % 2 == 1)).stack.values ≠ []) :
    (m.takeWidth ctx (m.stack.size % 2 == 1)).prepareMask ctx = m.prepareMask ctx := by
  unfold prepareMask declareStems
  rw [takeWidth_of_taken (takeWidth_taken _), if_neg (by simpa using hleft),
    if_neg (by simpa using hsome)]

theorem prepareMask_complete (hversion : ctx.version = .type2) (htaken : m.widthTaken = false)
    (w : α) (hpos : 0 < m.stack.size) (heven : m.stack.size % 2 = 0) :
    InStep (AlikeButWidth (ctx.privateDict.nominalWidthX + w))
      (AlikeButWidth (ctx.privateDict.nominalWidthX + w)) (m.prepareMask ctx)
      ((m.onto w).prepareMask ctx) := by
  have hvalues : m.stack.values ≠ [] := List.ne_nil_of_length_pos hpos
  have hodd : ((m.stack.size + 1) % 2 == 1) = true := by
    rw [beq_iff_eq]
    omega
  have halike := takeWidth_onto hversion htaken w
  have hstack : ((m.onto w).takeWidth ctx true).stack = m.stack := by
    rw [halike.eq, takeWidth_false]
    rfl
  have hplain : (m.stack.size % 2 == 1) = false := by
    rw [heven]
    rfl
  rw [← prepareMask_takeWidth hvalues (by rw [hplain, takeWidth_false]; exact hvalues),
    ← prepareMask_takeWidth (m := m.onto w) (by simp [onto, Stack.onto, stack, withStack])
      (by rw [size_stack_onto, hodd, hstack]; exact hvalues),
    size_stack_onto, hodd, hplain]
  exact halike.prepareMask

/-- The first operator that clears the stack does the same with a width below its operands, and
takes the width. -/
theorem execute_complete (hversion : ctx.version = .type2) (htaken : m.widthTaken = false) (w : α)
    (hcomplete : op.isComplete m.stack.size = true) (rest : List UInt8) :
    InStep (AlikeButWidth (ctx.privateDict.nominalWidthX + w))
      (Beside (AlikeButWidth (ctx.privateDict.nominalWidthX + w)) (·.1.1)
        fun next => (next.1.2, next.2))
      (execute ctx 0 (.operator op) rest m) (execute ctx 0 (.operator op) rest (m.onto w)) := by
  have hknown : op.isKnownTo ctx.version = true := by
    rw [hversion]
    cases op with
    | stems axis masked => cases masked <;> rfl
    | rmoveto | hmoveto | vmoveto | endchar | mask => rfl
    | _ => cases hcomplete
  cases op with
  | stems | rmoveto | hmoveto | vmoveto =>
    rw [execute_plain hknown rfl, execute_plain hknown rfl]
    exact (evaluate_complete hversion htaken w rfl rfl hknown hcomplete).map fun _ _ h => ⟨h, rfl⟩
  | endchar =>
    dsimp only [execute]
    rw [if_neg (by simp [hknown]), if_neg (by simp [hknown])]
    exact .ok ⟨endCharacter_complete hversion htaken w hcomplete, rfl⟩
  | mask isCounter =>
    obtain ⟨hpos, heven⟩ : 0 < m.stack.size ∧ m.stack.size % 2 = 0 := by
      simpa [Operator.isComplete] using hcomplete
    dsimp only [execute]
    rw [if_neg (by simp [hknown]), if_neg (by simp [hknown])]
    refine (prepareMask_complete hversion htaken w hpos heven).bind fun m m' h => ?_
    dsimp only
    rw [(lockstep_alikeButWidth hversion _).hintCount h]
    split_ifs
    · exact .error h
    · exact .ok ⟨h.addMask ctx isCounter _, rfl⟩
  | _ => cases hcomplete

end Machine

-- ---------------------------------------------------------------------------
-- Whole charstrings
-- ---------------------------------------------------------------------------

namespace Configuration

variable {c c' : Configuration α} {op : Operator} {x : Outcome α (Machine α)} {w : α}

theorem next_complete (hversion : ctx.version = .type2) (htaken : c.machine.widthTaken = false)
    (w : α) (hop : c.operator? ctx = some op)
    (hcomplete : op.isComplete c.machine.stack.size = true) :
    ∃ n n', c.next ctx = some n ∧ (c.onto w).next ctx = some n' ∧
      Machine.InStep (Machine.AlikeButWidth (ctx.privateDict.nominalWidthX + w))
        (Machine.Beside (Machine.AlikeButWidth (ctx.privateDict.nominalWidthX + w))
          Configuration.machine Configuration.frames) n n' := by
  obtain ⟨frames, m⟩ := c
  rcases frames with _ | ⟨_ | ⟨b, code⟩, outer⟩
  · cases hop
  · cases hop
  · rw [operator?] at hop
    rcases hread : Token.read (α := α) ctx.version b code with e | ⟨a | op, rest⟩
    · rw [hread] at hop
      cases hop
    · rw [hread] at hop
      cases hop
    · rw [hread] at hop
      cases hop
      have hcall : callOf? ctx (.operator op : Token α) = none := by
        cases op with
        | call => cases hcomplete
        | _ => rfl
      refine ⟨_, _, next_of_not_call hread hcall, next_of_not_call hread hcall, ?_⟩
      refine (Machine.execute_complete hversion htaken w hcomplete rest).map ?_
      rintro ⟨⟨m, ending⟩, rest⟩ ⟨⟨m', ending'⟩, rest'⟩ ⟨h, heq⟩
      obtain ⟨rfl, rfl⟩ := Prod.mk.inj heq
      rcases ending with _ | _ | _ <;> exact ⟨h, rfl⟩

/-- From the first operator that clears the stack, evaluation comes to the same end whether or not
there is a width. -/
theorem EndsWith.complete (h : EndsWith ctx c x) (hversion : ctx.version = .type2)
    (htaken : c.machine.widthTaken = false) (w : α) (hop : c.operator? ctx = some op)
    (hcomplete : op.isComplete c.machine.stack.size = true) :
    ∃ y, EndsWith ctx (c.onto w) y ∧
      Machine.InStep (Machine.AlikeButWidth (ctx.privateDict.nominalWidthX + w))
        (Machine.AlikeButWidth (ctx.privateDict.nominalWidthX + w)) x y := by
  obtain ⟨n, n', hnext, hnext', hstep⟩ := next_complete hversion htaken w hop hcomplete
  cases hstep with
  | error halike =>
    obtain rfl := h.unique ⟨c, .refl, .inr ⟨_, hnext, rfl⟩⟩
    exact ⟨_, ⟨_, .refl, .inr ⟨_, hnext', rfl⟩⟩, .error halike⟩
  | @ok c1 c1' hbeside =>
    obtain ⟨halike, hframes⟩ := hbeside
    obtain ⟨y, hy, hxy⟩ := (h.of_reaches (.single hnext)).inStep
      (Machine.lockstep_alikeButWidth hversion _) halike
    rw [hframes] at hy
    obtain ⟨last, hlast, hend⟩ := hy
    exact ⟨y, ⟨last, .head hnext' hlast, hend⟩, hxy⟩

theorem reaches_onto (hversion : ctx.version = .type2) {code : List UInt8}
    (hpath : Relation.ReflTransGen (Computes ctx 47) (start ctx code) c) (w : α) :
    Reaches ctx (start ctx code) c ∧ Reaches ctx ((start ctx code).onto w) (c.onto w) ∧
      c.machine.widthTaken = false := by
  induction hpath with
  | refl => exact ⟨.refl, .refl, rfl⟩
  | @tail c c' _ hstep ih =>
    obtain ⟨hreaches, honto, htaken⟩ := ih
    have hreaches' := hreaches.tail hstep.next
    have hlimit : c'.machine.stack.limit = 48 := by
      rw [(Reaches.bounded hreaches').2.1, hversion]
      rfl
    obtain ⟨hnext, hsame⟩ := hstep.next_onto hversion (by rw [hlimit]; norm_num) w
    exact ⟨hreaches', honto.tail hnext, hsame.trans htaken⟩

theorem next_start (hversion : ctx.version = .type2) {bytes : List UInt8}
    (hw : Operand.Encodes ctx.version bytes w) (code : List UInt8) :
    (start ctx (bytes ++ code)).next ctx = some (.ok ((start ctx code).onto w)) := by
  obtain ⟨b, rest, rfl, hstarts, hread⟩ := hw
  have htoken : Token.read ctx.version b (rest ++ code) = .ok (Token.operand w, code) := by
    rw [Token.read, if_pos hstarts, hread]
  have hroom : (Machine.start ctx).stack.size < (Machine.start ctx).stack.limit := by
    show 0 < ctx.version.stackLimit
    rw [hversion]
    decide
  show Configuration.next ctx ⟨(b :: (rest ++ code)) :: [], _⟩ = _
  rw [next_of_not_call htoken rfl, Machine.execute, Machine.push_eq_load _ w hroom]
  rfl

end Configuration

theorem Machine.result_eq (ctx : Context α) (x : Outcome α (Machine α × Ending)) :
    Machine.result ctx x =
      match x.map Prod.fst with
      | .ok m => m.finish ctx
      | .error ⟨m, e⟩ => (m.report e).finish ctx := by
  rcases x with halt | ⟨m, ending⟩ <;> rfl

/-- A width in front of a charstring of Type 2 is transparent. Its code may compute on the stack and
call subroutines, as long as there is room for one more operand, before the first operator clears
the stack; and this operator has to have as many operands as it takes. -/
theorem decode_width_append (hversion : ctx.version = .type2) {bytes : List UInt8} {w : α}
    (hw : Operand.Encodes ctx.version bytes w) {code : List UInt8} {c : Configuration α}
    (hpath : Relation.ReflTransGen (Configuration.Computes ctx 47) (.start ctx code) c)
    {op : Operator} (hop : c.operator? ctx = some op)
    (hcomplete : op.isComplete c.machine.stack.size = true) :
    decode ctx (bytes ++ code) =
      (decode ctx code).withAdvance (ctx.privateDict.nominalWidthX + w) := by
  obtain ⟨hreaches, honto, htaken⟩ := Configuration.reaches_onto hversion hpath w
  have hplain := (Configuration.endsWith_run ctx code).of_reaches hreaches
  obtain ⟨y, ⟨last, hlast, hend⟩, halike⟩ := hplain.complete hversion htaken w hop hcomplete
  have hfirst := Configuration.next_start hversion hw code
  obtain rfl : y = ((Machine.start ctx).run ctx callLimit (bytes ++ code)).map Prod.fst :=
    Configuration.EndsWith.unique ⟨last, .head hfirst (honto.trans hlast), hend⟩
      (Configuration.endsWith_run ctx (bytes ++ code))
  rw [decode_eq, decode_eq, Machine.result_eq, Machine.result_eq]
  generalize ((Machine.start ctx).run ctx callLimit code).map Prod.fst = x at halike
  generalize ((Machine.start ctx).run ctx callLimit (bytes ++ code)).map Prod.fst = y at halike
  cases halike with
  | ok h => exact h.finish
  | error h => exact (h.report _).finish

/-- Takes so many steps, if none of them clears the stack or leaves more operands than some limit. -/
def Configuration.compute (ctx : Context α) (limit : ℕ) :
    ℕ → Configuration α → Option (Configuration α)
  | 0, c => some c
  | steps + 1, c =>
    match c.next ctx with
    | some (.ok c') =>
      if (∀ op ∈ c.operator? ctx, op.clearsStack = false) ∧ c'.machine.stack.size ≤ limit then
        compute ctx limit steps c'
      else none
    | _ => none

theorem Configuration.computes_of_compute {limit steps : ℕ} {c c' : Configuration α}
    (h : c.compute ctx limit steps = some c') :
    Relation.ReflTransGen (Computes ctx limit) c c' := by
  induction steps generalizing c with
  | zero =>
    cases h
    exact .refl
  | succ steps ih =>
    rw [compute] at h
    split at h
    next c'' hnext =>
      split_ifs at h with hstep
      exact .head ⟨hnext, hstep.1, hstep.2⟩ (ih h)
    next => cases h

/-- A subroutine that adds 20 and 30. -/
def summingContext : Context Float :=
  { widthContext with localSubroutines := .ofArray #[[159, 169, 12, 10, 11]] .type2 }

/-- A triangle. The operands of its move come from the subroutine and from `roll` and `index`. -/
def summingCode : List UInt8 :=
  [149, 32, 10, 141, 140, 12, 30, 139, 12, 29, 12, 18, 21, 239, 6, 189, 7, 14]

theorem decode_width_append_summing :
    decode summingContext ([239] ++ summingCode) =
      (decode summingContext summingCode).withAdvance
        (summingContext.privateDict.nominalWidthX + 100) := by
  have hmove : (((Configuration.start summingContext summingCode).compute summingContext 47 13).map
      fun c => (c.operator? summingContext, c.machine.stack.size)) = some (some .rmoveto, 2) := by
    decide +kernel
  obtain ⟨c, hc, heq⟩ := Option.map_eq_some_iff.mp hmove
  obtain ⟨hop, hsize⟩ := Prod.mk.inj heq
  exact decode_width_append rfl (Operand.encodes_byte _ (n := 100) (by norm_num) (by norm_num))
    (Configuration.computes_of_compute hc) hop (by rw [hsize]; rfl)

end Letterform.Charstring
