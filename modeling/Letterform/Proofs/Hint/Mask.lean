import Letterform.Hint.Mask
import Mathlib

/-!
# Masks are sets of stem numbers

Every operation on masks is described by the numbers that the result contains. A mask written for
a number of stems and read again is the set as far as these stems go.
-/

namespace Letterform.HintMask

@[ext] theorem ext_contains {m m' : HintMask} (h : ∀ n, m.contains n = m'.contains n) : m = m' := by
  obtain ⟨bits⟩ := m
  obtain ⟨bits'⟩ := m'
  exact congrArg mk (Nat.eq_of_testBit_eq h)

@[simp] theorem contains_empty (n : ℕ) : empty.contains n = false := Nat.zero_testBit n

@[simp] theorem contains_insert (m : HintMask) (n k : ℕ) :
    (m.insert n).contains k = (decide (k = n) || m.contains k) := by
  rw [contains, insert, Nat.testBit_or, Nat.one_shiftLeft, Nat.testBit_two_pow, Bool.or_comm,
    contains]
  congr 1
  exact decide_eq_decide.mpr eq_comm

theorem contains_foldl_insert (ns : List ℕ) (m : HintMask) (k : ℕ) :
    (ns.foldl insert m).contains k = (decide (k ∈ ns) || m.contains k) := by
  induction ns generalizing m with
  | nil => simp
  | cons n ns ih =>
    rw [List.foldl_cons, ih, contains_insert, ← Bool.or_assoc]
    congr 1
    rw [Bool.eq_iff_iff]
    simp [or_comm]

@[simp] theorem contains_ofList (ns : List ℕ) (k : ℕ) : (ofList ns).contains k = decide (k ∈ ns) := by
  rw [ofList, contains_foldl_insert, contains_empty, Bool.or_false]

@[simp] theorem mem_toList {m : HintMask} {n : ℕ} : n ∈ m.toList ↔ m.contains n = true := by
  rw [toList, List.mem_filter, List.mem_range, and_iff_right_iff_imp]
  intro h
  have hle : 2 ^ n ≤ m.bits := Nat.ge_two_pow_of_testBit h
  have hne : m.bits ≠ 0 := by
    have := Nat.two_pow_pos n
    omega
  rw [if_neg hne]
  exact Nat.lt_succ_of_le ((Nat.le_log2 hne).mpr hle)

theorem contains_erase (m : HintMask) (n k : ℕ) :
    (m.erase n).contains k = (decide (k ≠ n) && m.contains k) := by
  have hbit : (1 <<< n : ℕ).testBit k = decide (k = n) := by
    rw [Nat.one_shiftLeft, Nat.testBit_two_pow]
    exact decide_eq_decide.mpr eq_comm
  unfold erase
  split_ifs with h
  · rw [contains, Nat.testBit_xor, hbit]
    by_cases hk : k = n
    · subst hk
      rw [contains] at h
      simp [h]
    · simp [hk, contains]
  · by_cases hk : k = n
    · subst hk
      simpa using h
    · simp [hk]

theorem isEmpty_iff {m : HintMask} : m.isEmpty = true ↔ m = empty := by
  rw [isEmpty, beq_iff_eq]
  exact ⟨fun h => congrArg mk h, fun h => congrArg bits h⟩

theorem pairwise_toList (m : HintMask) : m.toList.Pairwise (· < ·) :=
  List.pairwise_lt_range.filter _

theorem contains_renumber {m : HintMask} {f : ℕ → Option ℕ} {n : ℕ} :
    (m.renumber f).contains n = true ↔ ∃ k, m.contains k = true ∧ f k = some n := by
  simp [renumber]

theorem renumber_idxOf?_range (m : HintMask) (numbers : List ℕ) :
    (m.renumber numbers.idxOf?).renumber (List.range numbers.length).idxOf? =
      m.renumber numbers.idxOf? := by
  ext n
  rw [Bool.eq_iff_iff, contains_renumber]
  constructor
  · rintro ⟨k, hk, hfound⟩
    obtain ⟨_, hget, -⟩ := List.idxOf?_eq_some_iff.mp hfound
    rw [List.getElem_range] at hget
    exact hget ▸ hk
  · intro hn
    obtain ⟨k, -, hk⟩ := contains_renumber.mp hn
    obtain ⟨hlt, -⟩ := List.idxOf?_eq_some_iff.mp hk
    refine ⟨n, hn, List.idxOf?_eq_some_iff.mpr ⟨by simpa using hlt, List.getElem_range _, ?_⟩⟩
    intro j hj heq
    rw [List.getElem_range] at heq
    exact hj.ne heq

-- ---------------------------------------------------------------------------
-- Bytes
-- ---------------------------------------------------------------------------

theorem mem_bitsOfByte {b : UInt8} {i : ℕ} :
    i ∈ bitsOfByte b ↔ i < 8 ∧ b.toNat.testBit (7 - i) = true := by
  rw [bitsOfByte, List.mem_filter, List.mem_range]

theorem contains_ofBytes {bytes : List UInt8} {n : ℕ} :
    (ofBytes bytes).contains n = true ↔
      ∃ b, bytes[n / 8]? = some b ∧ b.toNat.testBit (7 - n % 8) = true := by
  simp only [ofBytes, contains_ofList, decide_eq_true_eq, List.mem_flatMap, List.mem_map,
    mem_bitsOfByte, Prod.exists, List.mem_zipIdx_iff_getElem?]
  constructor
  · rintro ⟨b, i, hi, j, ⟨hj, hbit⟩, rfl⟩
    rw [show (8 * i + j) / 8 = i by omega, show (8 * i + j) % 8 = j by omega]
    exact ⟨b, hi, hbit⟩
  · rintro ⟨b, hb, hbit⟩
    exact ⟨b, n / 8, hb, n % 8, ⟨Nat.mod_lt _ (by norm_num), hbit⟩, Nat.div_add_mod n 8⟩

theorem testBit_foldl_bits (p : ℕ → Bool) (js : List ℕ) (hjs : ∀ j ∈ js, j < 8) (b : UInt8) {i : ℕ}
    (hi : i < 8) :
    (js.foldl (fun b j => if p j then b ||| 0x80 >>> j.toUInt8 else b) b).toNat.testBit (7 - i) =
      (decide (i ∈ js) && p i || b.toNat.testBit (7 - i)) := by
  induction js generalizing b with
  | nil => simp
  | cons j js ih =>
    obtain ⟨hj, hrest⟩ := List.forall_mem_cons.mp hjs
    have hshift : (0x80 >>> j.toUInt8 : UInt8).toNat.testBit (7 - i) = decide (i = j) := by
      have h : ∀ i < 8, ∀ j < 8,
          (0x80 >>> j.toUInt8 : UInt8).toNat.testBit (7 - i) = decide (i = j) := by decide
      exact h i hi j hj
    rw [List.foldl_cons, ih hrest]
    by_cases hp : p j = true
    · rw [if_pos hp, UInt8.toNat_or, Nat.testBit_or, hshift]
      by_cases hij : i = j
      · subst hij
        simp [hp]
      · simp [hij]
    · rw [if_neg hp]
      by_cases hij : i = j
      · subst hij
        simp [hp]
      · simp [hij]

theorem testBit_byteAt (m : HintMask) (bound i : ℕ) {j : ℕ} (hj : j < 8) :
    (m.byteAt bound i).toNat.testBit (7 - j) =
      (decide (8 * i + j < bound) && m.contains (8 * i + j)) := by
  rw [byteAt, testBit_foldl_bits _ _ (fun j hj => List.mem_range.mp hj) _ hj]
  simp [hj]

@[simp] theorem length_toBytes (m : HintMask) (stemCount : ℕ) :
    (m.toBytes stemCount).length = byteLength stemCount := by
  simp [toBytes]

theorem contains_ofBytes_toBytes (m : HintMask) (stemCount n : ℕ) :
    (ofBytes (m.toBytes stemCount)).contains n = (decide (n < stemCount) && m.contains n) := by
  have hdiv := Nat.div_add_mod n 8
  have hmod := Nat.mod_lt n (show 8 > 0 by norm_num)
  have hbit := m.testBit_byteAt stemCount (n / 8) hmod
  rw [hdiv] at hbit
  rw [Bool.eq_iff_iff, contains_ofBytes, ← hbit]
  by_cases h : n / 8 < byteLength stemCount
  · simp [toBytes, h]
  · have hout : ¬ n < stemCount := by
      rw [byteLength] at h
      omega
    simp [toBytes, h, hbit, hout]

end Letterform.HintMask
