import Letterform.Charstring.Operand
import Letterform.Proofs.Number.BigEndian
import Letterform.Proofs.Number.Lawful

/-!
# Operands are read as they were written

Whatever number is written, an operand of that dialect starts at its first byte and ends with its
last one. The value read back is the number itself if it is a 16.16 number in range.
-/

namespace Letterform.Charstring.Operand

open Scalar (IsFixed)

variable {α : Type} [Scalar α]

/-- The whole number in front of a short form, if there is one. -/
def short? (version : Version) (a : α) : Option (List UInt8) :=
  if Scalar.isWhole a then shortForm? version (Scalar.toInt32 a) else none

def held (version : Version) (a : α) : α := if version = .type1 then Scalar.round a else a

def reread (version : Version) (a : α) : α :=
  let a := held version a
  if version = .type1 ∨ (short? version a).isSome then Scalar.ofInt (Scalar.toInt32 a)
  else Scalar.ofFixed (Scalar.toFixed a)

/-- Some bytes stand for an operand with a value, whatever follows them. -/
def Encodes (version : Version) (bytes : List UInt8) (a : α) : Prop :=
  ∃ b rest, bytes = b :: rest ∧ starts version b = true ∧
    ∀ tail, read? version b (rest ++ tail) = some (a, tail)

-- ---------------------------------------------------------------------------
-- Forms
-- ---------------------------------------------------------------------------

theorem toNat_ofNat_lt {k : ℕ} (h : k < 256) : (UInt8.ofNat k).toNat = k := by
  rw [UInt8.toNat_ofNat']
  omega

theorem encodes_byte (version : Version) {n : ℤ} (hlow : -107 ≤ n) (hhigh : n ≤ 107) :
    Encodes version [UInt8.ofNat (n + 139).toNat] (Scalar.ofInt n : α) := by
  have hb := toNat_ofNat_lt (k := (n + 139).toNat) (by omega)
  refine ⟨_, [], rfl, ?_, fun tail => ?_⟩
  · simp [starts, UInt8.le_iff_toNat_le, hb]
    omega
  · have hvalue : ((UInt8.ofNat (n + 139).toNat).toNat : ℤ) - 139 = n := by omega
    simp only [read?, ← UInt8.toNat_inj, UInt8.le_iff_toNat_le, hvalue]
    rw [hb, if_neg (by simp; omega), if_pos (by simp; omega)]
    rfl

theorem encodes_pair (version : Version) {n : ℤ} {k v : ℕ} (hk : 247 ≤ k) (hk' : k ≤ 254)
    (hv : v < 256)
    (hn : n = if k ≤ 250 then ((k : ℤ) - 247) * 256 + v + 108 else (251 - (k : ℤ)) * 256 - v - 108) :
    Encodes version [UInt8.ofNat k, UInt8.ofNat v] (Scalar.ofInt n : α) := by
  have hb := toNat_ofNat_lt (k := k) (by omega)
  have hb' := toNat_ofNat_lt hv
  refine ⟨_, [UInt8.ofNat v], rfl, ?_, fun tail => ?_⟩
  · simp [starts, UInt8.le_iff_toNat_le, hb]
    omega
  · simp only [read?, ← UInt8.toNat_inj, UInt8.le_iff_toNat_le, List.cons_append, List.nil_append,
      hb, hb']
    rw [if_neg (by simp; omega), if_neg (by simp; omega), if_neg (by simp; omega), hn]
    rfl

theorem encodes_of_shortForm {version : Version} {n : ℤ} {bytes : List UInt8}
    (h : shortForm? version n = some bytes) : Encodes version bytes (Scalar.ofInt n : α) := by
  unfold shortForm? at h
  split_ifs at h with h1 h2 h3 h4
  · cases h
    exact encodes_byte version h1.1 h1.2
  · cases h
    exact encodes_pair version (by omega) (by omega) (by omega) (by split_ifs <;> omega)
  · cases h
    exact encodes_pair version (by omega) (by omega) (by omega) (by split_ifs <;> omega)
  · cases h
    refine ⟨28, BigEndian.encode 2 n, rfl, ?_, fun tail => ?_⟩
    · simp [starts, h4.2.2]
    · have hsigned := BigEndian.signed_encode 2 (n := n) (by omega) (by omega)
      obtain ⟨b1, b2, heq⟩ := List.length_eq_two.mp (BigEndian.length_encode 2 n)
      rw [heq] at hsigned ⊢
      simp [read?, hsigned]

theorem shortForm?_mem {version : Version} {n : ℤ} (h : (shortForm? version n).isSome = true) :
    -32768 ≤ n ∧ n ≤ 32767 := by
  unfold shortForm? at h
  split_ifs at h <;> first | omega | cases h

theorem encodes_word (version : Version) {n : ℤ} (hlow : -0x80000000 ≤ n) (hhigh : n ≤ 0x7fffffff) :
    Encodes version (255 :: BigEndian.encode 4 n)
      (if version = .type1 then Scalar.ofInt n else Scalar.ofFixed n : α) := by
  refine ⟨255, BigEndian.encode 4 n, rfl, rfl, fun tail => ?_⟩
  have hsigned := BigEndian.signed_encode 4 (n := n) (by omega) (by omega)
  have hlength := BigEndian.length_encode 4 n
  obtain ⟨b1, b2, b3, b4, heq⟩ : ∃ b1 b2 b3 b4, BigEndian.encode 4 n = [b1, b2, b3, b4] :=
    ⟨_, _, _, _, rfl⟩
  rw [heq] at hsigned ⊢
  simp [read?, hsigned]

-- ---------------------------------------------------------------------------
-- Any number
-- ---------------------------------------------------------------------------

variable [LawfulScalar α]

theorem encodes_write (version : Version) (a : α) :
    Encodes version (write version a) (reread version a) := by
  have hint (a : α) : -0x80000000 ≤ Scalar.toInt32 a ∧ Scalar.toInt32 a ≤ 0x7fffffff :=
    LawfulScalar.truncate_mem (by norm_num)
  have hwrite : write version a = (short? version (held version a)).getD
      (255 :: BigEndian.encode 4 (if version = .type1 then Scalar.toInt32 (held version a)
        else Scalar.toFixed (held version a))) := rfl
  rw [hwrite, reread]
  generalize held version a = a
  rcases hshort : short? version a with _ | bytes
  · have hword : -0x80000000 ≤ (if version = .type1 then Scalar.toInt32 a else Scalar.toFixed a) ∧
        (if version = .type1 then Scalar.toInt32 a else Scalar.toFixed a) ≤ 0x7fffffff := by
      split_ifs
      · exact hint a
      · exact hint _
    have := encodes_word (α := α) version hword.1 hword.2
    simp only [Option.getD_none, Option.isSome_none, Bool.false_eq_true, or_false]
    split_ifs at this ⊢ <;> exact this
  · simp only [Option.getD_some, Option.isSome_some, or_true, if_true]
    unfold short? at hshort
    split_ifs at hshort
    exact encodes_of_shortForm hshort

/-- The 16.16 number that comes back is the nearest one in range. -/
theorem isFixed_reread_saturated {version : Version} (hversion : version ≠ .type1) {a : α} {n : ℤ}
    (h : IsFixed a n) (hn : |n| < 2 ^ 52) :
    IsFixed (reread version a) (max (-2 ^ 31) (min (2 ^ 31 - 1) n)) := by
  simp only [reread, held, hversion, if_false, false_or]
  split_ifs with hshort
  · unfold short? at hshort
    split_ifs at hshort with hwhole
    · rw [h.isWhole, decide_eq_true_iff] at hwhole
      obtain ⟨m, rfl⟩ := Int.dvd_of_emod_eq_zero hwhole
      rw [h.toInt32_saturated] at hshort ⊢
      -- A whole number that saturates has no short form.
      have hm := shortForm?_mem hshort
      have heq : max (-2 ^ 31) (min (2 ^ 31 - 1) (65536 * m)) =
          65536 * max (-0x80000000) (min 0x7fffffff m) := by omega
      rw [heq]
      exact Scalar.isFixed_ofInt (by rw [abs_lt]; omega)
    · cases hshort
  · rw [h.toFixed_saturated hn]
    exact Scalar.isFixed_ofFixed (by rw [abs_lt]; omega)

/-- A 16.16 number in range comes back as it is. -/
theorem isFixed_reread {version : Version} (hversion : version ≠ .type1) {a : α} {n : ℤ}
    (h : IsFixed a n) (hlow : -2 ^ 31 ≤ n) (hhigh : n < 2 ^ 31) :
    IsFixed (reread version a) n := by
  have hreread := isFixed_reread_saturated hversion h (by rw [abs_lt]; omega)
  rwa [show max (-2 ^ 31) (min (2 ^ 31 - 1) n) = n by omega] at hreread

-- ---------------------------------------------------------------------------
-- Any bytes
-- ---------------------------------------------------------------------------

/-- Except in Type 1 all operands are 16.16 numbers. -/
theorem isFixed_of_read? {version : Version} (hversion : version ≠ .type1) {b : UInt8}
    {code rest : List UInt8} {a : α} (h : read? version b code = some (a, rest)) :
    ∃ n : ℤ, IsFixed a n ∧ -2 ^ 31 ≤ n ∧ n < 2 ^ 31 := by
  have of_int {n : ℤ} (hlow : -2 ^ 15 ≤ n) (hhigh : n < 2 ^ 15) :
      ∃ k : ℤ, IsFixed (Scalar.ofInt n : α) k ∧ -2 ^ 31 ≤ k ∧ k < 2 ^ 31 :=
    ⟨65536 * n, Scalar.isFixed_ofInt (by rw [abs_lt]; omega), by omega, by omega⟩
  have hb := b.toNat_lt
  unfold read? at h
  dsimp only at h
  split_ifs at h with h28 h246 h255 h250
  · rcases code with _ | ⟨b1, _ | ⟨b2, code⟩⟩ <;> cases h
    have := BigEndian.signed_mem [b1, b2]
    simp only [List.length_cons, List.length_nil] at this
    exact of_int (by omega) (by omega)
  · cases h
    exact of_int (by omega) (by omega)
  · rcases code with _ | ⟨b1, _ | ⟨b2, _ | ⟨b3, _ | ⟨b4, code⟩⟩⟩⟩ <;> cases h
    have := BigEndian.signed_mem [b1, b2, b3, b4]
    simp only [List.length_cons, List.length_nil] at this
    exact ⟨_, Scalar.isFixed_ofFixed (by rw [abs_lt]; omega), by omega, by omega⟩
  all_goals
    rcases code with _ | ⟨b1, code⟩ <;> cases h
    have := b1.toNat_lt
    simp only [UInt8.le_iff_toNat_le, UInt8.reduceToNat] at h246 h250
    exact of_int (by omega) (by omega)

end Letterform.Charstring.Operand
