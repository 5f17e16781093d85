import Letterform.Proofs.Hint.Mask

/-!
# Masks as rows of bytes

A mask can be kept as the row of bytes that a charstring has for it, without the zero bytes at its
end. There is one such row for every finite set of stem numbers, so rows are equal exactly when the
sets are, as long as everything that is done to a row leaves no zero byte at its end. Here is what is
done to rows, and that it comes to the same as what is done to sets.
-/

namespace Letterform

@[ext] structure PackedMask where
  bytes : List UInt8
  trimmed : bytes.getLast? ≠ some 0
  deriving DecidableEq

namespace PackedMask

def bitFor (n : ℕ) : UInt8 := 0x80 >>> (n % 8).toUInt8

def hasBit (b : UInt8) (n : ℕ) : Bool := b &&& bitFor n != 0

/-- Whether a row of bytes has a number. There are zeros behind its end. -/
def holds (bytes : List UInt8) (n : ℕ) : Bool := hasBit (bytes.getD (n / 8) 0) n

-- ---------------------------------------------------------------------------
-- Bits of a byte
-- ---------------------------------------------------------------------------

theorem toNat_bitFor (n : ℕ) : (bitFor n).toNat = 2 ^ (7 - n % 8) := by
  have h : ∀ j < 8, (0x80 >>> j.toUInt8 : UInt8).toNat = 2 ^ (7 - j) := by decide
  exact h _ (Nat.mod_lt n (by norm_num))

theorem hasBit_eq_testBit (b : UInt8) (n : ℕ) : hasBit b n = b.toNat.testBit (7 - n % 8) := by
  have hzero : b &&& bitFor n = 0 ↔ b.toNat.testBit (7 - n % 8) = false := by
    rw [← UInt8.toNat_inj, UInt8.toNat_and, toNat_bitFor, Nat.and_two_pow]
    cases b.toNat.testBit (7 - n % 8) <;> simp
  rw [hasBit, Bool.eq_iff_iff, bne_iff_ne, ne_eq, hzero, Bool.not_eq_false]

@[simp] theorem hasBit_zero (n : ℕ) : hasBit 0 n = false := by simp [hasBit]

@[simp] theorem hasBit_or (b c : UInt8) (n : ℕ) :
    hasBit (b ||| c) n = (hasBit b n || hasBit c n) := by
  simp [hasBit_eq_testBit]

@[simp] theorem hasBit_and (b c : UInt8) (n : ℕ) :
    hasBit (b &&& c) n = (hasBit b n && hasBit c n) := by
  simp [hasBit_eq_testBit]

@[simp] theorem hasBit_not (b : UInt8) (n : ℕ) : hasBit (~~~b) n = !hasBit b n := by
  have hlt : 7 - n % 8 < 8 := by omega
  rw [hasBit_eq_testBit, hasBit_eq_testBit, UInt8.toNat_not,
    show UInt8.size - 1 - b.toNat = 2 ^ 8 - (b.toNat + 1) by rw [UInt8.size]; omega,
    Nat.testBit_two_pow_sub_succ b.toNat_lt]
  simp [hlt]

@[simp] theorem hasBit_bitFor (n k : ℕ) : hasBit (bitFor n) k = decide (k % 8 = n % 8) := by
  rw [hasBit_eq_testBit, toNat_bitFor, Nat.testBit_two_pow]
  exact decide_eq_decide.mpr (by omega)

theorem eq_of_hasBit {b c : UInt8} (h : ∀ j < 8, hasBit b j = hasBit c j) : b = c := by
  refine UInt8.toNat_inj.mp (Nat.eq_of_testBit_eq fun i => ?_)
  by_cases hi : i < 8
  · have hj := h (7 - i) (by omega)
    rw [hasBit_eq_testBit, hasBit_eq_testBit] at hj
    rwa [show 7 - (7 - i) % 8 = i by omega] at hj
  · have hlarge (a : UInt8) : a.toNat.testBit i = false :=
      Nat.testBit_lt_two_pow (a.toNat_lt.trans_le (Nat.pow_le_pow_right (by norm_num) (by omega)))
    rw [hlarge, hlarge]

-- ---------------------------------------------------------------------------
-- Rows of bytes
-- ---------------------------------------------------------------------------

/-- A row with zeros at its end, so that it has so many bytes at least. -/
def padded (bytes : List UInt8) (length : ℕ) : List UInt8 :=
  bytes ++ List.replicate (length - bytes.length) 0

theorem getD_padded (bytes : List UInt8) (length i : ℕ) :
    (padded bytes length).getD i 0 = bytes.getD i 0 := by
  simp only [padded, List.getD_eq_getElem?_getD, List.getElem?_append, List.getElem?_replicate]
  split_ifs <;> simp_all

theorem length_padded (bytes : List UInt8) (length : ℕ) :
    (padded bytes length).length = max bytes.length length := by
  simp [padded]
  omega

@[simp] theorem holds_padded (bytes : List UInt8) (length n : ℕ) :
    holds (padded bytes length) n = holds bytes n := by
  rw [holds, getD_padded, holds]

@[simp] theorem holds_trim (bytes : List UInt8) (n : ℕ) :
    holds (bytes.rdropWhile (· == 0)) n = holds bytes n := by
  induction bytes using List.reverseRecOn with
  | nil => rfl
  | append_singleton bytes b ih =>
    by_cases hb : b = 0
    · subst hb
      have hzero : padded bytes (bytes.length + 1) = bytes ++ [0] := by
        rw [padded, Nat.add_sub_cancel_left, List.replicate_one]
      rw [List.rdropWhile_concat_pos _ _ _ rfl, ih, ← hzero, holds_padded]
    · rw [List.rdropWhile_concat_neg (· == 0) bytes b (by simpa using hb)]

/-- A row that is cut or filled up with zeros to a length. -/
def resized (bytes : List UInt8) (length : ℕ) : List UInt8 := (padded bytes length).take length

@[simp] theorem length_resized (bytes : List UInt8) (length : ℕ) :
    (resized bytes length).length = length := by
  rw [resized, List.length_take, length_padded]
  omega

theorem holds_resized (bytes : List UInt8) (length n : ℕ) :
    holds (resized bytes length) n = (decide (n / 8 < length) && holds bytes n) := by
  rw [holds, resized, List.getD_eq_getElem?_getD, List.getElem?_take]
  split_ifs with h
  · rw [← List.getD_eq_getElem?_getD, getD_padded, ← holds, decide_eq_true h, Bool.true_and]
  · simp [h]

theorem holds_modify {bytes : List UInt8} {i : ℕ} (hi : i < bytes.length) (change : UInt8 → UInt8)
    (n : ℕ) : holds (bytes.modify i change) n =
      if n / 8 = i then hasBit (change (bytes.getD i 0)) n else holds bytes n := by
  by_cases h : n / 8 = i
  · subst h
    rw [holds, if_pos rfl, List.getD_eq_getElem?_getD, List.getElem?_modify]
    simp [hi]
  · rw [holds, if_neg h, holds, List.getD_eq_getElem?_getD, List.getElem?_modify]
    simp [Ne.symm h]

theorem holds_byte (bytes : List UInt8) (i : ℕ) {j : ℕ} (hj : j < 8) :
    holds bytes (8 * i + j) = hasBit (bytes.getD i 0) j := by
  rw [holds, hasBit_eq_testBit, hasBit_eq_testBit, show (8 * i + j) / 8 = i by omega,
    show (8 * i + j) % 8 = j % 8 by omega]

theorem eq_of_holds {bytes bytes' : List UInt8} (hlength : bytes.length = bytes'.length)
    (h : ∀ n, holds bytes n = holds bytes' n) : bytes = bytes' := by
  refine List.ext_getElem hlength fun i hi hi' => eq_of_hasBit fun j hj => ?_
  have hn := h (8 * i + j)
  rwa [holds_byte _ _ hj, holds_byte _ _ hj, List.getD_eq_getElem _ _ hi,
    List.getD_eq_getElem _ _ hi'] at hn

theorem contains_ofBytes (bytes : List UInt8) (n : ℕ) :
    (HintMask.ofBytes bytes).contains n = holds bytes n := by
  rw [Bool.eq_iff_iff, HintMask.contains_ofBytes, holds, hasBit_eq_testBit,
    List.getD_eq_getElem?_getD]
  cases bytes[n / 8]? <;> simp

-- ---------------------------------------------------------------------------
-- What is done to rows
-- ---------------------------------------------------------------------------

def ofBytes (bytes : List UInt8) : PackedMask where
  bytes := bytes.rdropWhile (· == 0)
  trimmed := by
    intro hlast
    obtain ⟨before, hbytes⟩ := List.getLast?_eq_some_iff.mp hlast
    have hne : bytes.rdropWhile (· == 0) ≠ [] := by simp [hbytes]
    exact List.rdropWhile_last_not _ _ hne (by simp [hbytes])

def empty : PackedMask := ⟨[], nofun⟩

def contains (m : PackedMask) (n : ℕ) : Bool :=
  match m.bytes[n / 8]? with
  | some b => hasBit b n
  | none => false

/-- Adds a number. The row grows up to its byte, which is not zero after that. -/
def insert (m : PackedMask) (n : ℕ) : PackedMask where
  bytes := (padded m.bytes (n / 8 + 1)).modify (n / 8) (· ||| bitFor n)
  trimmed := by
    intro hlast
    rw [List.getLast?_eq_getElem?, List.length_modify, length_padded, List.getElem?_modify] at hlast
    obtain ⟨b, hb, hzero⟩ := Option.map_eq_some_iff.mp hlast
    by_cases hn : n / 8 = max m.bytes.length (n / 8 + 1) - 1
    · rw [if_pos hn] at hzero
      simpa [hzero] using hasBit_or b (bitFor n) n
    · have hfits : n / 8 + 1 ≤ m.bytes.length := by omega
      refine m.trimmed ?_
      rw [if_neg hn] at hzero
      rw [max_eq_left hfits, padded, Nat.sub_eq_zero_of_le hfits, List.replicate_zero,
        List.append_nil, hzero] at hb
      rw [List.getLast?_eq_getElem?, hb]

def erase (m : PackedMask) (n : ℕ) : PackedMask :=
  ofBytes (m.bytes.modify (n / 8) (· &&& ~~~bitFor n))

def isEmpty (m : PackedMask) : Bool := m.bytes.isEmpty

def toList (m : PackedMask) : List ℕ :=
  m.bytes.zipIdx.flatMap fun (b, i) => ((List.range 8).filter (hasBit b)).map (8 * i + ·)

def renumber (m : PackedMask) (f : ℕ → Option ℕ) : PackedMask :=
  m.toList.foldl (fun result n => (f n).elim result result.insert) empty

/-- Cuts or fills up the row to the bytes for so many stems, and clears what the last byte has
behind the last stem. -/
def toBytes (m : PackedMask) (stemCount : ℕ) : List UInt8 :=
  let length := HintMask.byteLength stemCount
  let bytes := resized m.bytes length
  if stemCount % 8 = 0 then bytes
  else bytes.modify (length - 1) (· &&& 0xff <<< (8 - stemCount % 8).toUInt8)

def unpack (m : PackedMask) : HintMask := .ofBytes m.bytes

-- ---------------------------------------------------------------------------
-- Rows and sets
-- ---------------------------------------------------------------------------

theorem contains_eq_holds (m : PackedMask) (n : ℕ) : m.contains n = holds m.bytes n := by
  rw [contains, holds, List.getD_eq_getElem?_getD]
  cases m.bytes[n / 8]? <;> simp

theorem contains_unpack (m : PackedMask) (n : ℕ) : m.unpack.contains n = m.contains n := by
  rw [unpack, contains_ofBytes, contains_eq_holds]

/-- A longer row has a number that a shorter one lacks, since its last byte is not zero. -/
theorem length_le_of_holds {m m' : PackedMask} (h : ∀ n, holds m.bytes n = holds m'.bytes n) :
    m.bytes.length ≤ m'.bytes.length := by
  by_contra hlonger
  push Not at hlonger
  refine m.trimmed ?_
  rw [List.getLast?_eq_getElem?, List.getElem?_eq_getElem (by omega)]
  refine congrArg some (eq_of_hasBit fun j hj => ?_)
  have hn := h (8 * (m.bytes.length - 1) + j)
  rw [holds_byte _ _ hj, holds_byte _ _ hj, List.getD_eq_getElem _ _ (by omega),
    List.getD_eq_default _ _ (by omega)] at hn
  exact hn

theorem unpack_injective : Function.Injective unpack := by
  intro m m' heq
  have hholds (n : ℕ) : holds m.bytes n = holds m'.bytes n := by
    rw [← contains_eq_holds, ← contains_unpack, heq, contains_unpack, contains_eq_holds]
  have hlength : m.bytes.length = m'.bytes.length :=
    (length_le_of_holds hholds).antisymm (length_le_of_holds fun n => (hholds n).symm)
  exact PackedMask.ext (eq_of_holds hlength hholds)

theorem unpack_ofBytes (bytes : List UInt8) : (ofBytes bytes).unpack = .ofBytes bytes := by
  ext n
  rw [unpack, contains_ofBytes, contains_ofBytes, ofBytes, holds_trim]

theorem unpack_insert (m : PackedMask) (n : ℕ) : (m.insert n).unpack = m.unpack.insert n := by
  ext k
  have hlength : n / 8 < (padded m.bytes (n / 8 + 1)).length := by
    rw [length_padded]
    omega
  rw [HintMask.contains_insert, unpack, contains_ofBytes, unpack, contains_ofBytes, insert,
    holds_modify hlength, getD_padded, holds_padded]
  split_ifs with hk
  · rw [hasBit_or, hasBit_bitFor, holds, hk, Bool.or_comm]
    congr 1
    exact decide_eq_decide.mpr (by omega)
  · rw [decide_eq_false (by rintro rfl; exact hk rfl), Bool.false_or]

theorem unpack_erase (m : PackedMask) (n : ℕ) : (m.erase n).unpack = m.unpack.erase n := by
  ext k
  rw [erase, unpack_ofBytes, contains_ofBytes, HintMask.contains_erase, contains_unpack,
    contains_eq_holds]
  by_cases hn : n / 8 < m.bytes.length
  · rw [holds_modify hn]
    split_ifs with hk
    · rw [hasBit_and, hasBit_not, hasBit_bitFor, holds, hk, Bool.and_comm]
      congr 1
      rw [Bool.eq_iff_iff]
      simp
      omega
    · rw [decide_eq_true (by rintro rfl; exact hk rfl), Bool.true_and]
  · rw [List.modify_eq_self (by omega)]
    by_cases hk : k = n
    · subst hk
      rw [holds, List.getD_eq_default _ _ (by omega), hasBit_zero, Bool.and_false]
    · rw [decide_eq_true hk, Bool.true_and]

theorem isEmpty_unpack (m : PackedMask) : m.unpack.isEmpty = m.isEmpty := by
  have hempty : m.unpack = .empty ↔ m = empty :=
    ⟨fun h => unpack_injective h, fun h => h ▸ rfl⟩
  rw [Bool.eq_iff_iff, HintMask.isEmpty_iff, hempty, PackedMask.ext_iff, isEmpty,
    List.isEmpty_iff]
  rfl

theorem mem_toList {m : PackedMask} {n : ℕ} : n ∈ m.toList ↔ m.contains n = true := by
  have hlist : n ∈ m.toList ↔ ∃ b i, m.bytes[i]? = some b ∧ ∃ j < 8, hasBit b j = true ∧
      8 * i + j = n := by
    simp [toList, List.mk_mem_zipIdx_iff_getElem?, and_assoc]
  rw [hlist, contains_eq_holds]
  constructor
  · rintro ⟨b, i, hb, j, hj, hbit, rfl⟩
    rw [holds_byte _ _ hj, List.getD_eq_getElem?_getD, hb]
    exact hbit
  · intro hn
    have hlt : n / 8 < m.bytes.length := by
      by_contra hout
      rw [holds, List.getD_eq_default _ _ (by omega), hasBit_zero] at hn
      cases hn
    refine ⟨m.bytes[n / 8], n / 8, List.getElem?_eq_getElem hlt, n % 8, Nat.mod_lt _ (by norm_num),
      ?_, Nat.div_add_mod n 8⟩
    rwa [← Nat.div_add_mod n 8, holds_byte _ _ (Nat.mod_lt _ (by norm_num)),
      List.getD_eq_getElem _ _ hlt] at hn

theorem pairwise_toList (m : PackedMask) : m.toList.Pairwise (· < ·) := by
  rw [toList, List.pairwise_flatMap]
  constructor
  · rintro ⟨b, i⟩ -
    rw [List.pairwise_map]
    exact (List.pairwise_lt_range.filter _).imp fun h => by omega
  · rw [List.pairwise_iff_getElem]
    intro i j hi hj hlt n hn k hk
    simp only [List.getElem_zipIdx, List.mem_map, List.mem_filter, List.mem_range] at hn hk
    obtain ⟨r, ⟨hr, -⟩, rfl⟩ := hn
    obtain ⟨t, -, rfl⟩ := hk
    omega

theorem toList_unpack (m : PackedMask) : m.unpack.toList = m.toList :=
  m.unpack.pairwise_toList.eq_of_mem_iff m.pairwise_toList fun n => by
    rw [HintMask.mem_toList, contains_unpack, mem_toList]

theorem unpack_renumber (m : PackedMask) (f : ℕ → Option ℕ) :
    (m.renumber f).unpack = m.unpack.renumber f := by
  have hfold (ns : List ℕ) (r : PackedMask) :
      (ns.foldl (fun result n => (f n).elim result result.insert) r).unpack =
        (ns.filterMap f).foldl HintMask.insert r.unpack := by
    induction ns generalizing r with
    | nil => rfl
    | cons n ns ih =>
      cases hn : f n with
      | none => simpa [hn] using ih r
      | some k => simpa [hn, unpack_insert] using ih (r.insert k)
  rw [renumber, hfold, HintMask.renumber, toList_unpack]
  rfl

-- ---------------------------------------------------------------------------
-- Bytes
-- ---------------------------------------------------------------------------

theorem length_toBytes (m : PackedMask) (stemCount : ℕ) :
    (m.toBytes stemCount).length = HintMask.byteLength stemCount := by
  rw [toBytes]
  split_ifs <;> simp

theorem hasBit_lastBits {r : ℕ} (hr : r < 8) (hr0 : r ≠ 0) (n : ℕ) :
    hasBit (0xff <<< (8 - r).toUInt8) n = decide (n % 8 < r) := by
  have h : ∀ r < 8, r ≠ 0 → ∀ j < 8,
      (0xff <<< (8 - r).toUInt8 : UInt8).toNat.testBit (7 - j) = decide (j < r) := by decide
  rw [hasBit_eq_testBit, h r hr hr0 _ (Nat.mod_lt n (by norm_num))]

theorem holds_toBytes (m : PackedMask) (stemCount n : ℕ) :
    holds (m.toBytes stemCount) n = (decide (n < stemCount) && m.contains n) := by
  have hlength : HintMask.byteLength stemCount = (stemCount + 7) / 8 := rfl
  rw [toBytes, contains_eq_holds]
  split_ifs with hwhole
  · rw [holds_resized]
    congr 1
    exact decide_eq_decide.mpr (by omega)
  · rw [holds_modify (by rw [length_resized]; omega)]
    split_ifs with hlast
    · rw [hasBit_and, hasBit_lastBits (Nat.mod_lt _ (by norm_num)) hwhole, ← hlast, ← holds,
        holds_resized, Bool.and_comm, ← Bool.and_assoc]
      congr 1
      rw [Bool.eq_iff_iff]
      simp
      omega
    · rw [holds_resized]
      congr 1
      exact decide_eq_decide.mpr (by omega)

theorem toBytes_unpack (m : PackedMask) (stemCount : ℕ) :
    m.unpack.toBytes stemCount = m.toBytes stemCount := by
  refine eq_of_holds ?_ fun n => ?_
  · rw [HintMask.length_toBytes, length_toBytes]
  · rw [← contains_ofBytes, HintMask.contains_ofBytes_toBytes, holds_toBytes, contains_unpack]

end PackedMask

end Letterform
