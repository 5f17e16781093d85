import Letterform.Proofs.Charstring.Operand
import Letterform.Proofs.Number.Double

/-!
# Operands are written in the fewest bytes

The forms of an operand overlap: a small whole number could also be written as a 16-bit one or as a
word. What is written is never longer than what the number can be read from, and it is read as the
same number again.
-/

namespace Letterform.Charstring.Operand

open Scalar (IsFixed)

variable {α : Type} [Scalar α] {version : Version} {a : α} {bytes code rest : List UInt8} {n : ℤ}
  {k : ℕ}

/-- Some bytes start with an operand, and this is what follows it. -/
def Reads (version : Version) (bytes : List UInt8) (a : α) (rest : List UInt8) : Prop :=
  ∃ b code, bytes = b :: code ∧ starts version b = true ∧ read? version b code = some (a, rest)

/-- There is a form of so many bytes, a short one, for a whole number. -/
def HasForm (version : Version) (n : ℤ) (k : ℕ) : Prop :=
  (k = 1 ∧ -107 ≤ n ∧ n ≤ 107) ∨ (k = 2 ∧ -1131 ≤ n ∧ n ≤ 1131) ∨
    (k = 3 ∧ -32768 ≤ n ∧ n ≤ 32767 ∧ version ≠ .type1)

-- ---------------------------------------------------------------------------
-- The length of what is read
-- ---------------------------------------------------------------------------

theorem Reads.cases (h : Reads version bytes a rest) :
    (∃ n k, a = Scalar.ofInt n ∧ HasForm version n k ∧ bytes.length = k + rest.length) ∨
      ∃ n, -2 ^ 31 ≤ n ∧ n < 2 ^ 31 ∧
        a = (if version = .type1 then Scalar.ofInt n else Scalar.ofFixed n) ∧
        bytes.length = 5 + rest.length := by
  obtain ⟨b, code, rfl, hstarts, hread⟩ := h
  have hb := b.toNat_lt
  unfold read? at hread
  dsimp only at hread
  split at hread
  next h28 =>
    have hversion : version ≠ .type1 := by
      subst h28
      rintro rfl
      cases hstarts
    rcases code with _ | ⟨b1, _ | ⟨b2, code⟩⟩ <;> cases hread
    have hsigned := BigEndian.signed_mem [b1, b2]
    simp only [List.length_cons, List.length_nil] at hsigned ⊢
    exact .inl ⟨_, 3, rfl, .inr (.inr ⟨rfl, by omega, by omega, hversion⟩), by omega⟩
  next h28 =>
  split at hread
  next h246 =>
    cases hread
    have h32 : 32 ≤ b.toNat := by
      simpa [starts, UInt8.le_iff_toNat_le, h28] using hstarts
    simp only [UInt8.le_iff_toNat_le, UInt8.reduceToNat] at h246
    exact .inl ⟨_, 1, rfl, .inl ⟨rfl, by omega, by omega⟩, Nat.add_comm _ _⟩
  next h246 =>
  split at hread
  next =>
    rcases code with _ | ⟨b1, _ | ⟨b2, _ | ⟨b3, _ | ⟨b4, code⟩⟩⟩⟩ <;> cases hread
    have hsigned := BigEndian.signed_mem [b1, b2, b3, b4]
    simp only [List.length_cons, List.length_nil] at hsigned ⊢
    exact .inr ⟨BigEndian.signed [b1, b2, b3, b4], by omega, by omega, rfl, by omega⟩
  next h255 =>
    rcases code with _ | ⟨b1, code⟩ <;> cases hread
    have hb1 := b1.toNat_lt
    have hne : b.toNat ≠ 255 := fun h => h255 (UInt8.toNat_inj.mp h)
    simp only [UInt8.le_iff_toNat_le, UInt8.reduceToNat, List.length_cons] at h246 ⊢
    refine .inl ⟨_, 2, rfl, .inr (.inl ⟨rfl, ?_⟩), by omega⟩
    split_ifs <;> omega

-- ---------------------------------------------------------------------------
-- The length of what is written
-- ---------------------------------------------------------------------------

theorem HasForm.exists_shortForm (h : HasForm version n k) :
    ∃ bytes, shortForm? version n = some bytes ∧ bytes.length ≤ k := by
  unfold shortForm?
  dsimp only
  rcases h with ⟨rfl, hlow, hhigh⟩ | ⟨rfl, hlow, hhigh⟩ | ⟨rfl, hlow, hhigh, hversion⟩
  · rw [if_pos ⟨hlow, hhigh⟩]
    exact ⟨_, rfl, le_rfl⟩
  · split_ifs with hone hhigher hlower
    · exact ⟨_, rfl, by simp⟩
    · exact ⟨_, rfl, le_rfl⟩
    · exact ⟨_, rfl, le_rfl⟩
    all_goals omega
  · split_ifs with hone hhigher hlower hthree
    · exact ⟨_, rfl, by simp⟩
    · exact ⟨_, rfl, by simp⟩
    · exact ⟨_, rfl, by simp⟩
    · exact ⟨_, rfl, by simp⟩
    · exact absurd ⟨hlow, hhigh, hversion⟩ hthree

theorem HasForm.mem_range (h : HasForm version n k) : -2 ^ 15 ≤ n ∧ n < 2 ^ 15 := by
  rcases h with h | h | h <;> omega

theorem length_shortForm?_le (h : shortForm? version n = some bytes) : bytes.length ≤ 5 := by
  unfold shortForm? at h
  dsimp only at h
  split_ifs at h <;> cases h <;> simp

theorem length_write_le_five (version : Version) (a : α) : (write version a).length ≤ 5 := by
  unfold write
  dsimp only
  generalize (if version = .type1 then Scalar.round a else a) = a
  rcases hshort : if Scalar.isWhole a then shortForm? version (Scalar.toInt32 a) else none with
    _ | bytes
  · simp
  · split_ifs at hshort
    exact length_shortForm?_le hshort

variable [LawfulScalar α]

/-- A number that a dialect has operands for: in Type 1 a 32-bit integer, later on a 16.16 number. The
integer is the word that stands for it. -/
structure IsWord (version : Version) (a : α) (n : ℤ) : Prop where
  low : -2 ^ 31 ≤ n
  high : n < 2 ^ 31
  value : IsFixed a (if version = .type1 then 65536 * n else n)

theorem IsWord.held (h : IsWord version a n) : IsWord version (held version a) n := by
  refine ⟨h.low, h.high, ?_⟩
  have hvalue := h.value
  unfold Operand.held
  split_ifs at hvalue ⊢
  · exact hvalue.round
  · exact hvalue

theorem IsWord.reread_beq (h : IsWord version a n) : (reread version a == a) = true := by
  have hvalue := h.value
  have hlow := h.low
  have hhigh := h.high
  by_cases hversion : version = .type1
  · have hheld := h.held.value
    rw [if_pos hversion] at hvalue hheld
    have hreread : reread version a = Scalar.ofInt n := by
      unfold reread
      rw [if_pos (.inl hversion), hheld.toInt32 hlow hhigh]
    rw [hreread]
    exact ((Scalar.isFixed_ofInt (by rw [abs_lt]; omega)).beq_iff hvalue).mpr rfl
  · rw [if_neg hversion] at hvalue
    exact ((isFixed_reread hversion hvalue hlow hhigh).beq_iff hvalue).mpr rfl

theorem HasForm.length_write_le (hform : HasForm version n k) (h : IsFixed a (65536 * n)) :
    (write version a).length ≤ k := by
  obtain ⟨bytes, hshort, hle⟩ := hform.exists_shortForm
  obtain ⟨hlow, hhigh⟩ := hform.mem_range
  have hheld : IsFixed (if version = .type1 then Scalar.round a else a) (65536 * n) := by
    split_ifs
    · exact h.round
    · exact h
  unfold write
  dsimp only
  rw [hheld.isWhole, hheld.toInt32 (by omega) (by omega), hshort]
  simpa using hle

-- ---------------------------------------------------------------------------
-- No operand is longer than it has to be
-- ---------------------------------------------------------------------------

theorem Reads.exists_isWord (h : Reads version bytes a rest) : ∃ n, IsWord version a n := by
  rcases h.cases with ⟨n, k, rfl, hform, -⟩ | ⟨n, hlow, hhigh, rfl, -⟩
  · obtain ⟨hlow, hhigh⟩ := hform.mem_range
    have hfixed : IsFixed (Scalar.ofInt n : α) (65536 * n) :=
      Scalar.isFixed_ofInt (by rw [abs_lt]; omega)
    by_cases hversion : version = .type1
    · exact ⟨n, by omega, by omega, by rwa [if_pos hversion]⟩
    · exact ⟨65536 * n, by omega, by omega, by rwa [if_neg hversion]⟩
  · refine ⟨n, hlow, hhigh, ?_⟩
    split_ifs
    · exact Scalar.isFixed_ofInt (by rw [abs_lt]; omega)
    · exact Scalar.isFixed_ofFixed (by rw [abs_lt]; omega)

theorem Reads.length_write_le {a' : α} (h : Reads version bytes a' rest) (hword : IsWord version a n)
    (hbeq : (a' == a) = true) : (write version a).length + rest.length ≤ bytes.length := by
  rcases h.cases with ⟨m, k, rfl, hform, hlength⟩ | ⟨m, -, -, -, hlength⟩
  · obtain ⟨hlow, hhigh⟩ := hform.mem_range
    have hfixed : IsFixed (Scalar.ofInt m : α) (65536 * m) :=
      Scalar.isFixed_ofInt (by rw [abs_lt]; omega)
    have hvalue : IsFixed a (65536 * m) := (hfixed.beq_iff hword.value).mp hbeq ▸ hword.value
    have := hform.length_write_le hvalue
    omega
  · have := length_write_le_five version a
    omega

/-- In doubles, an operand is written for every 32-bit integer in Type 1 and for every 16.16 number
in the later dialects. It is read as this number whatever follows it, and nothing shorter is read as
the same number. Conversely, every operand that is read is a number for which nothing longer is
written, and what is written for it is read as the same number. -/
theorem write_shortest (version : Version) :
    (∀ (a : Float) n, IsWord version a n →
      (∃ a', Encodes version (write version a) a' ∧ (a' == a) = true) ∧
      ∀ bytes a' rest, Reads version bytes a' rest → (a' == a) = true →
        (write version a).length + rest.length ≤ bytes.length) ∧
    ∀ bytes (a : Float) rest, Reads version bytes a rest →
      (write version a).length + rest.length ≤ bytes.length ∧
      ∃ a', Encodes version (write version a) a' ∧ (a' == a) = true := by
  have hwritten {a : Float} {n : ℤ} (h : IsWord version a n) :
      ∃ a', Encodes version (write version a) a' ∧ (a' == a) = true :=
    ⟨_, encodes_write version a, h.reread_beq⟩
  constructor
  · intro a n h
    exact ⟨hwritten h, fun bytes a' rest hread => hread.length_write_le h⟩
  · intro bytes a rest hread
    obtain ⟨n, h⟩ := hread.exists_isWord
    exact ⟨hread.length_write_le h ((h.value.beq_iff h.value).mpr rfl), hwritten h⟩

/-- A whole number that is read from a word is written as a single byte, and a half as a word. -/
theorem write_shortest_words :
    Reads .cff2 [255, 0, 5, 0, 0, 14] (Scalar.ofFixed 0x50000 : Float) [14] ∧
      (write .cff2 (Scalar.ofFixed 0x50000 : Float)).length + [14].length ≤
        [255, 0, 5, 0, 0, 14].length ∧
      IsWord .cff2 (1 / 2 : Float) 0x8000 ∧
      ∃ a' : Float, Encodes .cff2 (write .cff2 (1 / 2 : Float)) a' ∧ (a' == 1 / 2) = true := by
  have hsigned : BigEndian.signed [0, 5, 0, 0] = 0x50000 := by decide
  have hreads : Reads .cff2 [255, 0, 5, 0, 0, 14] (Scalar.ofFixed 0x50000 : Float) [14] :=
    ⟨255, _, rfl, rfl, by simp [read?, hsigned]⟩
  have hvalue : IsFixed (1 / 2 : Float) 0x8000 := by
    have hhalf := Scalar.denotes_half (α := Float)
    norm_num [IsFixed]
    exact hhalf
  have hword : IsWord .cff2 (1 / 2 : Float) 0x8000 := ⟨by norm_num, by norm_num, hvalue⟩
  exact ⟨hreads, ((write_shortest .cff2).2 _ _ _ hreads).1, hword,
    ((write_shortest .cff2).1 _ _ hword).1⟩

example : write .cff2 (Scalar.ofFixed 0x50000 : Float) = [144] := by decide +kernel

end Letterform.Charstring.Operand
