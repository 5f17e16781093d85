import Letterform.Proofs.Charstring.Blending
import Letterform.Proofs.Number.Lawful

/-!
# Rolling turns the topmost operands

A place in the group on top is counted from the bottom of the group. The shift leads from the place
of a value to its new place, around the group. Where the values are then says all about the
operands, so what rolling again does follows from adding the shifts.
-/

namespace Letterform.Charstring

variable {α : Type}

-- ---------------------------------------------------------------------------
-- Places in a group
-- ---------------------------------------------------------------------------

/-- The place in a group of so many values to which a shift leads from a place. -/
def placeAfter (n : ℕ) (j : ℤ) (i : ℕ) : ℕ := ((i + j) % n).toNat

variable {n i : ℕ} {j k : ℤ} {operands operands' operands'' : List α}

theorem natCast_placeAfter (hi : i < n) : (placeAfter n j i : ℤ) = (i + j) % n :=
  Int.toNat_of_nonneg (Int.emod_nonneg _ (by omega))

theorem placeAfter_lt (hi : i < n) : placeAfter n j i < n := by
  have hlt : (i + j) % n < n := Int.emod_lt_of_pos _ (by omega)
  rw [← natCast_placeAfter hi] at hlt
  exact_mod_cast hlt

theorem placeAfter_zero (hi : i < n) : placeAfter n 0 i = i := by
  rw [placeAfter, add_zero, Int.emod_eq_of_lt (by omega) (by omega), Int.toNat_natCast]

theorem placeAfter_placeAfter (hi : i < n) :
    placeAfter n k (placeAfter n j i) = placeAfter n (j + k) i := by
  rw [placeAfter, natCast_placeAfter hi, Int.emod_add_emod, add_assoc]
  rfl

theorem placeAfter_congr (h : j ≡ k [ZMOD n]) : placeAfter n j i = placeAfter n k i :=
  congrArg Int.toNat (h.add_left i)

/-- The shift to one side undoes that to the other, so each place is one that a shift leads to. -/
theorem placeAfter_neg (hi : i < n) : placeAfter n j (placeAfter n (-j) i) = i := by
  rw [placeAfter_placeAfter hi, neg_add_cancel, placeAfter_zero hi]

theorem mod_of_placeAfter (hi : i < n) :
    (n - 1 - placeAfter n j i + (j % n).toNat) % n = n - 1 - i := by
  obtain ⟨k, hk⟩ := Int.eq_ofNat_of_zero_le (Int.emod_nonneg j (by omega : (n : ℤ) ≠ 0))
  have hlt : j % n < n := Int.emod_lt_of_pos j (by omega)
  have hplace : placeAfter n j i = (i + k) % n := by
    rw [← Int.natCast_inj, natCast_placeAfter hi, ← Int.add_emod_emod, hk]
    norm_cast
  rw [hplace, hk, Int.toNat_natCast]
  rcases lt_or_ge (i + k) n with hinside | haround
  · rw [Nat.mod_eq_of_lt hinside, show n - 1 - (i + k) + k = n - 1 - i by omega]
    exact Nat.mod_eq_of_lt (by omega)
  · have hround : (i + k) % n = i + k - n := by
      rw [Nat.mod_eq_sub_mod haround, Nat.mod_eq_of_lt (by omega)]
    rw [hround, show n - 1 - (i + k - n) + k = n - 1 - i + n by omega, Nat.add_mod_right]
    exact Nat.mod_eq_of_lt (by omega)

-- ---------------------------------------------------------------------------
-- Where the operands are
-- ---------------------------------------------------------------------------

/-- The topmost operands have been turned by a shift. Operands are listed from the bottom. -/
structure IsRolled (n : ℕ) (j : ℤ) (operands operands' : List α) : Prop where
  length : operands'.length = operands.length
  below {i : ℕ} : i < operands.length - n → operands'[i]? = operands[i]?
  moved {i : ℕ} : i < n →
    operands'[operands.length - n + placeAfter n j i]? = operands[operands.length - n + i]?

namespace IsRolled

theorem refl (n : ℕ) (operands : List α) : IsRolled n 0 operands operands :=
  ⟨rfl, fun _ => rfl, fun hi => by rw [placeAfter_zero hi]⟩

theorem trans (h : IsRolled n j operands operands') (h' : IsRolled n k operands' operands'') :
    IsRolled n (j + k) operands operands'' := by
  obtain ⟨hlength, hbelow, hmoved⟩ := h'
  rw [h.length] at hlength hbelow hmoved
  refine ⟨hlength, fun hi => (hbelow hi).trans (h.below hi), fun hi => ?_⟩
  rw [← placeAfter_placeAfter hi, hmoved (placeAfter_lt hi), h.moved hi]

theorem congr (h : IsRolled n j operands operands') (hjk : j ≡ k [ZMOD n]) :
    IsRolled n k operands operands' :=
  ⟨h.length, h.below, fun hi => by rw [← placeAfter_congr hjk, h.moved hi]⟩

theorem unique (h : IsRolled n j operands operands') (h' : IsRolled n j operands operands'') :
    operands' = operands'' := by
  refine List.ext_getElem? fun i => ?_
  rcases lt_or_ge i (operands.length - n) with hbelow | hgroup
  · rw [h.below hbelow, h'.below hbelow]
  rcases lt_or_ge i operands.length with hinside | hbeyond
  · obtain ⟨p, rfl⟩ := Nat.exists_eq_add_of_le hgroup
    have hp : p < n := by omega
    -- the shift leads to this place from the one that is as far back
    rw [← placeAfter_neg (j := j) hp, h.moved (placeAfter_lt hp), h'.moved (placeAfter_lt hp)]
  · rw [List.getElem?_eq_none (h.length.trans_le hbeyond),
      List.getElem?_eq_none (h'.length.trans_le hbeyond)]

end IsRolled

theorem isRolled_reverse (j : ℤ) (hn : n ≤ operands.length) :
    IsRolled n j operands
      ((operands.reverse.take n).rotateLeft (j % n).toNat ++ operands.reverse.drop n).reverse := by
  have htop : (operands.reverse.take n).length = n := by simpa using hn
  have hbelow : (operands.reverse.drop n).reverse = operands.take (operands.length - n) := by
    rw [List.drop_reverse, List.reverse_reverse]
  have hlength : (operands.take (operands.length - n)).length = operands.length - n := by simp
  rw [Stack.rotateLeft_eq_rotate, List.reverse_append, hbelow]
  generalize hturned : (operands.reverse.take n).rotate (j % n).toNat = turned
  have hturned' : turned.length = n := by rw [← hturned, List.length_rotate, htop]
  refine ⟨?_, fun {i} hi => ?_, fun {i} hi => ?_⟩
  · rw [List.length_append, hlength, List.length_reverse, hturned', Nat.sub_add_cancel hn]
  · rw [List.getElem?_append_left (by rwa [hlength]), List.getElem?_take_of_lt hi]
  · have hplace := placeAfter_lt (j := j) hi
    calc (operands.take (operands.length - n) ++
            turned.reverse)[operands.length - n + placeAfter n j i]?
        = turned.reverse[placeAfter n j i]? := by
          rw [List.getElem?_append_right (by rw [hlength]; exact Nat.le_add_right _ _), hlength,
            Nat.add_sub_cancel_left]
      _ = turned[n - 1 - placeAfter n j i]? := by
          rw [List.getElem?_reverse (by rwa [hturned']), hturned']
      _ = (operands.reverse.take n)[n - 1 - i]? := by
          rw [← hturned, List.getElem?_rotate (by rw [htop]; omega), htop, mod_of_placeAfter hi]
      _ = operands.reverse[n - 1 - i]? := List.getElem?_take_of_lt (by omega)
      _ = operands[operands.length - n + i]? := by
          rw [List.getElem?_reverse (by omega),
            show operands.length - 1 - (n - 1 - i) = operands.length - n + i by omega]

-- ---------------------------------------------------------------------------
-- Rolling
-- ---------------------------------------------------------------------------

namespace Stack

theorem roll_error_iff {s : Stack α} :
    s.roll j k = .error .stackUnderflow ↔ j < 0 ∨ (s.size : ℤ) < j := by
  unfold roll
  split_ifs with h
  · exact iff_of_true rfl h
  · exact iff_of_false nofun h

theorem roll_ofOperands (limit : ℕ) (j : ℤ) (hn : n ≤ operands.length) :
    ∃ operands', (ofOperands limit operands).roll n j = .ok (ofOperands limit operands') ∧
      IsRolled n j operands operands' := by
  refine ⟨_, ?_, isRolled_reverse j hn⟩
  have hfits : ¬ ((n : ℤ) < 0 ∨ ((ofOperands limit operands).size : ℤ) < n) := by
    rw [size_ofOperands]
    omega
  rw [roll, if_neg hfits, ofOperands, ofOperands, List.reverse_reverse]
  rfl

end Stack

section

variable [Scalar α]

namespace Calculator

variable {c : Calculator α} {count shift : α}

omit [Scalar α] in
/-- The same calculator with other operands, listed from the bottom. -/
def withOperands (c : Calculator α) (operands : List α) : Calculator α :=
  { c with stack := .ofOperands c.stack.limit operands }

omit [Scalar α] in
theorem withOperands_operands (c : Calculator α) : c.withOperands c.stack.operands = c := by
  rw [withOperands, Stack.ofOperands_operands]

theorem evaluate_roll (c : Calculator α) (operands : List α) (count shift : α) :
    (c.withOperands (operands ++ [count, shift])).evaluate .roll =
      c.withStack ((Stack.ofOperands c.stack.limit operands).roll
        (Scalar.toInt32 count) (Scalar.toInt32 shift)) := by
  have happend : operands ++ [count, shift] = operands ++ [count] ++ [shift] := by simp
  simp only [evaluate, withOperands, happend, Stack.popInt_ofOperands, bind, Except.bind]
  rfl

theorem evaluate_roll_of_short (h : c.stack.size < 2) :
    c.evaluate .roll = .error .stackUnderflow := by
  obtain ⟨⟨values, limit⟩, storage, generator⟩ := c
  match values, h with
  | [], _ => rfl
  | [a], _ => rfl

theorem evaluate_roll_error_iff :
    (c.withOperands (operands ++ [count, shift])).evaluate .roll = .error .stackUnderflow ↔
      Scalar.toInt32 count < 0 ∨ (operands.length : ℤ) < Scalar.toInt32 count := by
  rw [evaluate_roll, ← Stack.size_ofOperands c.stack.limit, ← Stack.roll_error_iff]
  cases (Stack.ofOperands c.stack.limit operands).roll (Scalar.toInt32 count)
    (Scalar.toInt32 shift) <;> simp [withStack, Except.map]

theorem evaluate_roll_ok (c : Calculator α) (shift : α) (hcount : Scalar.toInt32 count = n)
    (hn : n ≤ operands.length) :
    ∃ operands', (c.withOperands (operands ++ [count, shift])).evaluate .roll =
        .ok (c.withOperands operands') ∧
      IsRolled n (Scalar.toInt32 shift) operands operands' := by
  obtain ⟨operands', hroll, hrolled⟩ :=
    Stack.roll_ofOperands c.stack.limit (Scalar.toInt32 shift) hn
  refine ⟨operands', ?_, hrolled⟩
  rw [evaluate_roll, hcount, hroll]
  rfl

theorem evaluate_roll_of_isRolled (hcount : Scalar.toInt32 count = n) (hn : n ≤ operands.length)
    (h : IsRolled n (Scalar.toInt32 shift) operands operands') :
    (c.withOperands (operands ++ [count, shift])).evaluate .roll =
      .ok (c.withOperands operands') := by
  obtain ⟨operands'', hroll, hrolled⟩ := c.evaluate_roll_ok shift hcount hn
  rw [hroll, hrolled.unique h]

end Calculator

/-- Every number of 32 bits is that of some operand, and no other one is. -/
theorem exists_toInt32_iff [LawfulScalar α] :
    (∃ a : α, Scalar.toInt32 a = j) ↔ -2 ^ 31 ≤ j ∧ j < 2 ^ 31 := by
  constructor
  · rintro ⟨a, rfl⟩
    have hmem : -0x80000000 ≤ Scalar.toInt32 a ∧ Scalar.toInt32 a ≤ 0x7fffffff :=
      LawfulScalar.truncate_mem (by norm_num)
    omega
  · rintro ⟨hlow, hhigh⟩
    exact ⟨Scalar.ofInt j, (Scalar.isFixed_ofInt (by rw [abs_lt]; omega)).toInt32 hlow hhigh⟩

/-- Rolling with a number of operands and a shift on top, which can be any numbers of 32 bits. It
fails exactly if the number is negative or larger than that of the operands below the two. Otherwise
the operands below the group stay, and those in it move by the shift around the group. Rolling again
is rolling once by a shift that is the sum but for whole turns, and rolling back by the same shift
leads back to the operands. -/
theorem roll_turns_group [LawfulScalar α] (c : Calculator α) :
    (∀ j : ℤ, (∃ a : α, Scalar.toInt32 a = j) ↔ -2 ^ 31 ≤ j ∧ j < 2 ^ 31) ∧
      (c.stack.size < 2 → c.evaluate .roll = .error .stackUnderflow) ∧
      ∀ (operands : List α) (count shift : α),
        ((c.withOperands (operands ++ [count, shift])).evaluate .roll = .error .stackUnderflow ↔
          Scalar.toInt32 count < 0 ∨ (operands.length : ℤ) < Scalar.toInt32 count) ∧
        ∀ n : ℕ, Scalar.toInt32 count = n → n ≤ operands.length →
          ∃ operands', (c.withOperands (operands ++ [count, shift])).evaluate .roll =
              .ok (c.withOperands operands') ∧
            operands'.length = operands.length ∧
            (∀ i < operands.length - n, operands'[i]? = operands[i]?) ∧
            (∀ i < n, operands'[operands.length - n + ((i + Scalar.toInt32 shift) % n).toNat]? =
              operands[operands.length - n + i]?) ∧
            (∀ count' again total : α, Scalar.toInt32 count' = n →
              Scalar.toInt32 total ≡ Scalar.toInt32 shift + Scalar.toInt32 again [ZMOD n] →
              (c.withOperands (operands' ++ [count', again])).evaluate .roll =
                (c.withOperands (operands ++ [count, total])).evaluate .roll) ∧
            ∀ count' back : α, Scalar.toInt32 count' = n →
              Scalar.toInt32 back = -Scalar.toInt32 shift →
              (c.withOperands (operands' ++ [count', back])).evaluate .roll =
                .ok (c.withOperands operands) := by
  refine ⟨fun j => exists_toInt32_iff, Calculator.evaluate_roll_of_short, fun operands count shift =>
    ⟨Calculator.evaluate_roll_error_iff, fun n hcount hn => ?_⟩⟩
  obtain ⟨operands', hroll, hrolled⟩ := c.evaluate_roll_ok shift hcount hn
  have hn' : n ≤ operands'.length := hrolled.length ▸ hn
  refine ⟨operands', hroll, hrolled.length, fun i => hrolled.below, fun i => hrolled.moved,
    fun count' again total hcount' htotal => ?_, fun count' back hcount' hback => ?_⟩
  · obtain ⟨operands'', hagain, hrolled'⟩ := c.evaluate_roll_ok again hcount' hn'
    rw [hagain, Calculator.evaluate_roll_of_isRolled hcount hn
      ((hrolled.trans hrolled').congr htotal.symm)]
  · obtain ⟨operands'', hagain, hrolled'⟩ := c.evaluate_roll_ok back hcount' hn'
    have hturn := hrolled.trans hrolled'
    rw [hback, add_neg_cancel] at hturn
    rw [hagain, hturn.unique (.refl n operands)]

end

/-- The smallest shift there is moves the values of a group of three by one place. -/
example : let c : Calculator Float := .start 48
    (c.withOperands [7, 1, 2, 3, 3, -2147483648]).evaluate .roll =
      .ok (c.withOperands [7, 3, 1, 2]) := by decide +kernel

end Letterform.Charstring
