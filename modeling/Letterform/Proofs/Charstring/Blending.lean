import Letterform.Charstring.Variation
import Letterform.Number.Double
import Letterform.Proofs.Charstring.Stack
import Letterform.Proofs.Number.Exact

/-!
# Blending takes values with their deltas

On the stack the values to be blended lie below their deltas, and the deltas of a value lie next to
each other, one for each region. Blending takes all of them and leaves a sum for each value. It fails
only if there are too few operands for the number on top.
-/

namespace Letterform.Charstring

variable {α : Type}

-- ---------------------------------------------------------------------------
-- Groups of the same length
-- ---------------------------------------------------------------------------

theorem length_flatten_groups {groups : List (List α)} {k : ℕ} (h : ∀ g ∈ groups, g.length = k) :
    groups.flatten.length = groups.length * k := by
  rw [List.length_flatten, List.map_congr_left h, List.map_const', List.sum_replicate, smul_eq_mul]

theorem exists_groups {k n : ℕ} {values : List α} (h : values.length = n * k) :
    ∃ groups : List (List α), values = groups.flatten ∧ groups.length = n ∧
      ∀ g ∈ groups, g.length = k := by
  induction n generalizing values with
  | zero => exact ⟨[], by simpa using h, rfl, nofun⟩
  | succ n ih =>
    rw [Nat.succ_mul] at h
    obtain ⟨groups, hflatten, hcount, hlength⟩ :=
      @ih (values.drop k) (by rw [List.length_drop]; omega)
    refine ⟨values.take k :: groups, ?_, by rw [List.length_cons, hcount], ?_⟩
    · rw [List.flatten_cons, ← hflatten, List.take_append_drop]
    · rintro g (_ | ⟨_, hg⟩)
      · rw [List.length_take]
        omega
      · exact hlength g hg

theorem take_drop_flatten {groups : List (List α)} {k i : ℕ} (h : ∀ g ∈ groups, g.length = k)
    (hi : i < groups.length) : (groups.flatten.drop (i * k)).take k = groups[i] := by
  induction groups generalizing i with
  | nil => cases hi
  | cons g groups ih =>
    obtain ⟨hg, hgroups⟩ := List.forall_mem_cons.mp h
    cases i with
    | zero => simp [← hg]
    | succ i =>
      rw [List.flatten_cons, Nat.succ_mul, Nat.add_comm, ← List.drop_drop, ← hg, List.drop_left, hg]
      exact ih hgroups (by simpa using hi)

theorem getElem?_flatten_groups {groups : List (List α)} {k i j : ℕ}
    (h : ∀ g ∈ groups, g.length = k) (hi : i < groups.length) (hj : j < k) :
    groups.flatten[k * i + j]? = groups[i][j]? := by
  rw [← take_drop_flatten h hi, List.getElem?_take, if_pos hj, List.getElem?_drop, Nat.mul_comm]

-- ---------------------------------------------------------------------------
-- Sums
-- ---------------------------------------------------------------------------

namespace Stack

section

variable [Scalar α]

/-- What the regions that count add to a value, in the order of the regions. -/
def contributions (scalars deltas : List α) : List α :=
  ((deltas.zip scalars).filter fun p => !(p.2 == 0)).map fun p => p.1 * p.2

theorem blended_eq_foldl (scalars : List α) (value : α) (deltas : List α) :
    blended scalars value deltas = (contributions scalars deltas).foldl (· + ·) value := by
  unfold blended contributions
  generalize deltas.zip scalars = pairs
  induction pairs generalizing value with
  | nil => rfl
  | cons p pairs ih => cases hp : p.2 == 0 <;> simp [hp, ih]

theorem value_blended [ExactScalar α] (scalars : List α) (value : α) (deltas : List α) :
    ExactScalar.value (blended scalars value deltas) = ExactScalar.value value +
      ((deltas.zip scalars).map fun p => ExactScalar.value p.1 * ExactScalar.value p.2).sum := by
  unfold blended
  generalize deltas.zip scalars = pairs
  induction pairs generalizing value with
  | nil => simp
  | cons p pairs ih =>
    obtain ⟨delta, scalar⟩ := p
    rw [List.foldl_cons, ih, List.map_cons, List.sum_cons]
    dsimp only
    split_ifs with hscalar
    · have hzero : ExactScalar.value scalar = 0 := by simpa using ExactScalar.beq_iff.mp hscalar
      rw [hzero, mul_zero, zero_add]
    · rw [ExactScalar.value_add, ExactScalar.value_mul, add_assoc]

-- ---------------------------------------------------------------------------
-- Operands from the bottom to the top
-- ---------------------------------------------------------------------------

omit [Scalar α] in
/-- The stack that has these operands, listed from the bottom. -/
def ofOperands (limit : ℕ) (operands : List α) : Stack α := ⟨operands.reverse, limit⟩

omit [Scalar α] in
@[simp] theorem operands_ofOperands (limit : ℕ) (operands : List α) :
    (ofOperands limit operands).operands = operands := List.reverse_reverse operands

omit [Scalar α] in
theorem ofOperands_operands (s : Stack α) : ofOperands s.limit s.operands = s := by
  rw [ofOperands, operands, List.reverse_reverse]

omit [Scalar α] in
@[simp] theorem size_ofOperands (limit : ℕ) (operands : List α) :
    (ofOperands limit operands).size = operands.length := List.length_reverse

theorem popInt_ofOperands (limit : ℕ) (operands : List α) (count : α) :
    (ofOperands limit (operands ++ [count])).popInt =
      .ok (Scalar.toInt32 count, ofOperands limit operands) := by
  simp [ofOperands, popInt, pop]

omit [Scalar α] in
theorem popMany_ofOperands (limit : ℕ) (below taken : List α) :
    (ofOperands limit (below ++ taken)).popMany taken.length =
      .ok (taken, ofOperands limit below) := by
  have hfits : ¬ ((taken.length : ℤ) < 0 ∨
      ((ofOperands limit (below ++ taken)).size : ℤ) < taken.length) := by simp
  rw [popMany, if_neg hfits]
  simp [ofOperands, List.take_left', List.drop_left']

-- ---------------------------------------------------------------------------
-- Blending
-- ---------------------------------------------------------------------------

theorem blend_ofOperands (limit : ℕ) {below values : List α} {groups : List (List α)}
    {count : α} {scalars : List α} (hcount : Scalar.toInt32 count = values.length)
    (hgroups : groups.length = values.length) (hdeltas : ∀ g ∈ groups, g.length = scalars.length) :
    (ofOperands limit (below ++ values ++ groups.flatten ++ [count])).blend scalars =
      .ok (ofOperands limit (below ++ List.zipWith (blended scalars) values groups)) := by
  have htaken : ((values ++ groups.flatten).length : ℤ) =
      values.length * (scalars.length + 1) := by
    rw [List.length_append, length_flatten_groups hdeltas, hgroups]
    push_cast
    ring
  have hsums : (values.zipIdx.map fun p => blended scalars p.1
      ((groups.flatten.drop (p.2 * scalars.length)).take scalars.length)) =
        List.zipWith (blended scalars) values groups := by
    refine List.ext_getElem (by simp [hgroups]) fun i hi hi' => ?_
    have hlt : i < groups.length := by simpa [hgroups] using hi
    simp [take_drop_flatten hdeltas hlt]
  rw [blend, popInt_ofOperands, List.append_assoc below]
  simp only [bind, Except.bind, hcount]
  rw [← htaken, popMany_ofOperands]
  simp only [Int.toNat_natCast, List.drop_left, List.take_left, hsums]
  simp [ofOperands, pure, Except.pure]

theorem blend_underflow (limit : ℕ) {operands : List α} {count : α} {scalars : List α}
    (h : Scalar.toInt32 count < 0 ∨
      (operands.length : ℤ) < Scalar.toInt32 count * (scalars.length + 1)) :
    (ofOperands limit (operands ++ [count])).blend scalars = .error .stackUnderflow := by
  have hlack : Scalar.toInt32 count * (scalars.length + 1) < 0 ∨
      ((ofOperands limit operands).size : ℤ) < Scalar.toInt32 count * (scalars.length + 1) := by
    rw [size_ofOperands]
    exact h.imp_left fun hneg => Int.mul_neg_of_neg_of_pos hneg (by positivity)
  rw [blend, popInt_ofOperands]
  simp only [bind, Except.bind]
  rw [popMany, if_pos hlack]

omit [Scalar α] in
/-- Operands that are not too few consist of what stays, the values and a group of deltas for each
value. -/
theorem exists_parts {operands : List α} {n k : ℕ} (h : n * (k + 1) ≤ operands.length) :
    ∃ (below values : List α) (groups : List (List α)),
      operands = below ++ values ++ groups.flatten ∧ values.length = n ∧ groups.length = n ∧
        ∀ g ∈ groups, g.length = k := by
  have hsplit : n * (k + 1) = n + n * k := by ring
  obtain ⟨below, taken, rfl, htaken⟩ : ∃ below taken, operands = below ++ taken ∧
      taken.length = n + n * k :=
    ⟨_, _, (List.take_append_drop (operands.length - (n + n * k)) operands).symm, by
      rw [List.length_drop]
      omega⟩
  obtain ⟨values, deltas, rfl, hvalues⟩ : ∃ values deltas, taken = values ++ deltas ∧
      values.length = n :=
    ⟨_, _, (List.take_append_drop n taken).symm, by
      rw [List.length_take]
      omega⟩
  obtain ⟨groups, rfl, hgroups, hlength⟩ :=
    exists_groups (k := k) (show deltas.length = n * k by rw [List.length_append] at htaken; omega)
  exact ⟨below, values, groups, by rw [List.append_assoc], hvalues, hgroups, hlength⟩

theorem blend_append_cases (limit : ℕ) (operands : List α) (count : α) (scalars : List α) :
    ((Scalar.toInt32 count < 0 ∨
        (operands.length : ℤ) < Scalar.toInt32 count * (scalars.length + 1)) ∧
      (ofOperands limit (operands ++ [count])).blend scalars = .error .stackUnderflow) ∨
      ∃ (below values : List α) (groups : List (List α)),
        operands = below ++ values ++ groups.flatten ∧ Scalar.toInt32 count = values.length ∧
        groups.length = values.length ∧ (∀ g ∈ groups, g.length = scalars.length) ∧
        (ofOperands limit (operands ++ [count])).blend scalars =
          .ok (ofOperands limit (below ++ List.zipWith (blended scalars) values groups)) := by
  by_cases hlack : Scalar.toInt32 count < 0 ∨
      (operands.length : ℤ) < Scalar.toInt32 count * (scalars.length + 1)
  · exact .inl ⟨hlack, blend_underflow limit hlack⟩
  · push Not at hlack
    obtain ⟨n, hn⟩ := Int.eq_ofNat_of_zero_le hlack.1
    rw [hn] at hlack
    obtain ⟨below, values, groups, rfl, hvalues, hgroups, hdeltas⟩ :=
      exists_parts (show n * (scalars.length + 1) ≤ operands.length by exact_mod_cast hlack.2)
    have hcount : Scalar.toInt32 count = values.length := hvalues ▸ hn
    have hsame : groups.length = values.length := hgroups.trans hvalues.symm
    exact .inr ⟨below, values, groups, rfl, hcount, hsame, hdeltas,
      blend_ofOperands limit hcount hsame hdeltas⟩

/-- There is no number of values, or it is negative, or too few operands lie below it for that many
values with a delta for each region. -/
def LacksOperands (s : Stack α) (regions : ℕ) : Prop :=
  s.operands = [] ∨ ∃ operands count, s.operands = operands ++ [count] ∧
    (Scalar.toInt32 count < 0 ∨ (operands.length : ℤ) < Scalar.toInt32 count * (regions + 1))

theorem blend_cases (s : Stack α) (scalars : List α) :
    s.LacksOperands scalars.length ∧ s.blend scalars = .error .stackUnderflow ∨
      ∃ (below values : List α) (groups : List (List α)) (count : α),
        s.operands = below ++ values ++ groups.flatten ++ [count] ∧
        Scalar.toInt32 count = values.length ∧ groups.length = values.length ∧
        (∀ g ∈ groups, g.length = scalars.length) ∧ s.blend scalars =
          .ok (ofOperands s.limit (below ++ List.zipWith (blended scalars) values groups)) := by
  rw [← ofOperands_operands s]
  rcases List.eq_nil_or_concat s.operands with hnone | ⟨operands, count, hoperands⟩
  · rw [hnone]
    exact .inl ⟨.inl rfl, rfl⟩
  rw [hoperands, List.concat_eq_append]
  rcases blend_append_cases s.limit operands count scalars with
    ⟨hlack, herror⟩ | ⟨below, values, groups, rfl, hcount, hgroups, hdeltas, hok⟩
  · exact .inl ⟨.inr ⟨operands, count, operands_ofOperands _ _, hlack⟩, herror⟩
  · exact .inr ⟨below, values, groups, count, operands_ofOperands _ _, hcount, hgroups, hdeltas, hok⟩

omit [Scalar α] in
theorem getElem?_delta (below values : List α) {groups : List (List α)} {k i j : ℕ}
    (h : ∀ g ∈ groups, g.length = k) (hi : i < groups.length) (hj : j < k) :
    (below ++ values ++ groups.flatten)[below.length + values.length + k * i + j]? =
      groups[i][j]? := by
  rw [Nat.add_assoc, ← List.length_append, List.getElem?_append_right (Nat.le_add_right _ _),
    Nat.add_sub_cancel_left, getElem?_flatten_groups h hi hj]

end

end Stack

theorem VariationStore.exists_scalars [Scalar α] {store : VariationStore α} (location : List ℤ)
    {index : ℕ} {regions : List ℕ} (h : store.data[index]? = some regions) :
    ∃ scalars, store.scalars? location index = some scalars ∧ scalars.length = regions.length := by
  rw [scalars?, h]
  exact ⟨_, rfl, List.length_map ..⟩

/-- Blending with the regions of a set of variation data. It fails exactly if the number of values is
negative or there are fewer operands below it than values and deltas for all of them. Otherwise the
operands below these stay, and for each value there is its sum with the deltas of its group, each
times the scalar of its region; the delta of a region for a value is where it is counted to be on the
stack. -/
theorem blend_replaces_groups [Scalar α] (store : VariationStore α) (location : List ℤ) {index : ℕ}
    {regions : List ℕ} (hdata : store.data[index]? = some regions) (limit : ℕ) (operands : List α)
    (count : α) :
    ∃ scalars, store.scalars? location index = some scalars ∧ scalars.length = regions.length ∧
      ((Stack.ofOperands limit (operands ++ [count])).blend scalars = .error .stackUnderflow ↔
        Scalar.toInt32 count < 0 ∨
          (operands.length : ℤ) < Scalar.toInt32 count * (regions.length + 1)) ∧
      (∀ n : ℕ, Scalar.toInt32 count = n → n * (regions.length + 1) ≤ operands.length →
        ∃ (below values : List α) (groups : List (List α)) (s : Stack α),
          operands = below ++ values ++ groups.flatten ∧ values.length = n ∧ groups.length = n ∧
          (∀ deltas ∈ groups, deltas.length = regions.length) ∧
          (∀ i < n, ∀ j < regions.length, ∃ delta, groups[i]?.bind (·[j]?) = some delta ∧
            operands[below.length + n + regions.length * i + j]? = some delta) ∧
          (Stack.ofOperands limit (operands ++ [count])).blend scalars = .ok s ∧
          s.limit = limit ∧
          s.operands = below ++ List.zipWith
            (fun value deltas => (Stack.contributions scalars deltas).foldl (· + ·) value)
            values groups ∧
          s.size + (n * regions.length + 1) = (operands ++ [count]).length) ∧
      ∀ (exact : ExactScalar α) (value : α) (deltas : List α),
        exact.value ((Stack.contributions scalars deltas).foldl (· + ·) value) =
          exact.value value +
            ((deltas.zip scalars).map fun p => exact.value p.1 * exact.value p.2).sum := by
  obtain ⟨scalars, hscalars, hlength⟩ := store.exists_scalars location hdata
  have hcases := Stack.blend_append_cases limit operands count scalars
  simp only [hlength] at hcases
  refine ⟨scalars, hscalars, hlength, ⟨fun herror => ?_, fun hlack => ?_⟩, fun n hn hfits => ?_,
    fun exact value deltas => ?_⟩
  · rcases hcases with ⟨hlack, -⟩ | ⟨_, _, _, -, -, -, -, hok⟩
    · exact hlack
    · cases herror.symm.trans hok
  · exact Stack.blend_underflow limit (by rwa [hlength])
  · have henough : ¬ (Scalar.toInt32 count < 0 ∨
        (operands.length : ℤ) < Scalar.toInt32 count * (regions.length + 1)) := by
      rw [hn]
      push Not
      exact ⟨Int.natCast_nonneg n, by exact_mod_cast hfits⟩
    obtain ⟨below, values, groups, hoperands, hcount, hgroups, hdeltas, hblend⟩ :=
      hcases.resolve_left fun hlack => henough hlack.1
    obtain rfl : n = values.length := Int.natCast_inj.mp (hn.symm.trans hcount)
    refine ⟨below, values, groups, _, hoperands, rfl, hgroups, hdeltas, fun i hi j hj => ?_,
      hblend, rfl, ?_, ?_⟩
    · have hgroup : i < groups.length := hgroups ▸ hi
      have hdelta : j < groups[i].length := by rwa [hdeltas _ (List.getElem_mem hgroup)]
      refine ⟨groups[i][j], by simp [hgroup, hdelta], ?_⟩
      rw [hoperands, Stack.getElem?_delta below values hdeltas hgroup hj,
        List.getElem?_eq_getElem hdelta]
    · rw [Stack.operands_ofOperands]
      congr 2
      funext value deltas
      exact Stack.blended_eq_foldl scalars value deltas
    · have hsize := congrArg List.length hoperands
      simp only [List.length_append, length_flatten_groups hdeltas, hgroups] at hsize
      simp [hgroups, hsize]
      ring
  · rw [← Stack.blended_eq_foldl, Stack.value_blended]

/-- Two values in two regions that count with three quarters and a half. -/
theorem blend_replaces_groups_pair :
    let store : VariationStore Float :=
      { regions := [[⟨-1, -1, 0⟩], [⟨-1, -0.5, 0⟩]], data := [[0, 1]] }
    store.scalars? [-12288] 0 = some [0.75, 0.5] ∧
      ∃ s, (Stack.ofOperands 48 [7, 10, 20, 4, -8, -60, 2, 2]).blend [0.75, 0.5] = .ok s ∧
        s.operands = [7, 10 + 4 * 0.75 + -8 * 0.5, 20 + -60 * 0.75 + 2 * 0.5] ∧
        s.operands = [7, 9, -24] := by
  intro store
  have hstore : store.scalars? [-12288] 0 = some [0.75, 0.5] := by decide +kernel
  obtain ⟨scalars, hscalars, -, -, hblend, -⟩ := blend_replaces_groups store [-12288]
    (show store.data[0]? = some [0, 1] from rfl) 48 [7, 10, 20, 4, -8, -60, 2] 2
  obtain rfl : scalars = [0.75, 0.5] := Option.some.inj (hscalars.symm.trans hstore)
  obtain ⟨below, values, groups, s, hparts, hvalues, hgroups, hdeltas, -, hok, -, hleft, -⟩ :=
    hblend 2 (by decide +kernel) (by decide)
  obtain ⟨v, w, rfl⟩ := List.length_eq_two.mp hvalues
  obtain ⟨ds, es, rfl⟩ := List.length_eq_two.mp hgroups
  obtain ⟨d, d', rfl⟩ := List.length_eq_two.mp (hdeltas ds (by simp))
  obtain ⟨e, e', rfl⟩ := List.length_eq_two.mp (hdeltas es (by simp))
  obtain ⟨b, rfl⟩ : ∃ b, below = [b] := List.length_eq_one_iff.mp (by
    have := congrArg List.length hparts
    simp at this
    omega)
  simp only [List.flatten, List.append_eq, List.cons_append, List.nil_append,
    List.cons.injEq] at hparts
  obtain ⟨rfl, rfl, rfl, rfl, rfl, rfl, rfl, -⟩ := hparts
  have hsums : s.operands = [7, 10 + 4 * 0.75 + -8 * 0.5, 20 + -60 * 0.75 + 2 * 0.5] :=
    hleft.trans (by decide +kernel)
  exact ⟨hstore, s, hok, hsums, hsums.trans (by decide +kernel)⟩

end Letterform.Charstring
