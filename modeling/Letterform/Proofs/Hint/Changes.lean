import Letterform.Proofs.Hint.Packed

/-!
# Whatever is done to a mask

A mask is read from bytes, gains and loses stems, and gets other numbers for them. After any such
changes it stands for the set of numbers that they describe, and the row of bytes that the same
changes lead to stands for this set as well. Two masks are therefore equal exactly when the sets are,
whatever has been done to them.
-/

namespace Letterform

namespace HintMask

inductive Change
  /-- Its place is taken by the mask that some bytes stand for. -/
  | read (bytes : List UInt8)
  | insert (n : ℕ)
  | erase (n : ℕ)
  /-- Every number is replaced by another one, or left out. -/
  | renumber (f : ℕ → Option ℕ)

/-- What is done to the set of numbers. The most significant bit of the first byte stands for 0. -/
def Change.act (s : Set ℕ) : Change → Set ℕ
  | read bytes => {n | ∃ b, bytes[n / 8]? = some b ∧ b.toNat.testBit (7 - n % 8) = true}
  | insert n => s ∪ {n}
  | erase n => s \ {n}
  | renumber f => {k | ∃ n ∈ s, f n = some k}

def described (changes : List Change) : Set ℕ := changes.foldl Change.act ∅

def obey (m : HintMask) : Change → HintMask
  | .read bytes => ofBytes bytes
  | .insert n => m.insert n
  | .erase n => m.erase n
  | .renumber f => m.renumber f

def after (changes : List Change) : HintMask := changes.foldl obey empty

/-- A mask stands for a set: this is all that can be seen of it. -/
structure Describes (m : HintMask) (s : Set ℕ) : Prop where
  contains (n : ℕ) : m.contains n = true ↔ n ∈ s
  ascending : m.toList.Pairwise (· < ·)
  mem_toList (n : ℕ) : n ∈ m.toList ↔ n ∈ s
  isEmpty : m.isEmpty = true ↔ s = ∅
  length_toBytes (stemCount : ℕ) : (m.toBytes stemCount).length = stemCount ⌈/⌉ 8
  /-- What is written and read again is the set below the number of stems. -/
  reread (stemCount n : ℕ) :
    (ofBytes (m.toBytes stemCount)).contains n = true ↔ n ∈ s ∩ {k | k < stemCount}
  padding (stemCount i : ℕ) (b : UInt8) : (m.toBytes stemCount)[i]? = some b →
    ∀ j < 8, stemCount ≤ 8 * i + j → b.toNat.testBit (7 - j) = false

end HintMask

namespace PackedMask

def obey (p : PackedMask) : HintMask.Change → PackedMask
  | .read bytes => ofBytes bytes
  | .insert n => p.insert n
  | .erase n => p.erase n
  | .renumber f => p.renumber f

/-- The row of bytes after some changes to the empty one. -/
def after (changes : List HintMask.Change) : PackedMask := changes.foldl obey empty

structure Packs (p : PackedMask) (m : HintMask) : Prop where
  unpack : p.unpack = m
  contains : p.contains = m.contains
  toList : p.toList = m.toList
  isEmpty : p.isEmpty = m.isEmpty
  toBytes : p.toBytes = m.toBytes
  reread (stemCount : ℕ) :
    (ofBytes (p.toBytes stemCount)).unpack = HintMask.ofBytes (m.toBytes stemCount)

theorem packs_unpack (p : PackedMask) : p.Packs p.unpack where
  unpack := rfl
  contains := funext fun n => (p.contains_unpack n).symm
  toList := p.toList_unpack.symm
  isEmpty := p.isEmpty_unpack.symm
  toBytes := funext fun stemCount => (p.toBytes_unpack stemCount).symm
  reread stemCount := by rw [unpack_ofBytes, p.toBytes_unpack]

theorem unpack_obey (p : PackedMask) (change : HintMask.Change) :
    (p.obey change).unpack = p.unpack.obey change := by
  cases change with
  | read bytes => exact unpack_ofBytes bytes
  | insert n => exact p.unpack_insert n
  | erase n => exact p.unpack_erase n
  | renumber f => exact p.unpack_renumber f

theorem unpack_after (changes : List HintMask.Change) :
    (after changes).unpack = HintMask.after changes := by
  have hfold (p : PackedMask) : (changes.foldl obey p).unpack = changes.foldl HintMask.obey p.unpack := by
    induction changes generalizing p with
    | nil => rfl
    | cons change changes ih => simp only [List.foldl_cons, ih, unpack_obey]
  exact hfold empty

end PackedMask

namespace HintMask

variable {m : HintMask} {s : Set ℕ}

theorem describes_of_contains (h : ∀ n, m.contains n = true ↔ n ∈ s) : m.Describes s where
  contains := h
  ascending := m.pairwise_toList
  mem_toList n := mem_toList.trans (h n)
  isEmpty := by
    rw [isEmpty_iff, Set.eq_empty_iff_forall_notMem]
    constructor
    · rintro rfl n hn
      simpa using (h n).mpr hn
    · intro hs
      ext n
      simpa using fun hn => hs n ((h n).mp hn)
  length_toBytes stemCount := m.length_toBytes stemCount
  reread stemCount n := by
    rw [contains_ofBytes_toBytes, Bool.and_eq_true, decide_eq_true_iff, h, and_comm]
    rfl
  padding stemCount i b hb j hj hout := by
    obtain ⟨hi, rfl⟩ := List.getElem?_eq_some_iff.mp hb
    simp only [toBytes, List.getElem_map, List.getElem_range]
    rw [testBit_byteAt _ _ _ hj, decide_eq_false (by omega), Bool.false_and]

theorem Describes.obey (h : m.Describes s) (change : Change) :
    (m.obey change).Describes (change.act s) := by
  refine describes_of_contains fun n => ?_
  cases change with
  | read bytes => exact contains_ofBytes
  | insert k =>
    simp only [HintMask.obey, Change.act, contains_insert, Bool.or_eq_true, decide_eq_true_iff,
      h.contains, Set.mem_union, Set.mem_singleton_iff]
    exact or_comm
  | erase k =>
    simp only [HintMask.obey, Change.act, contains_erase, Bool.and_eq_true, decide_eq_true_iff,
      h.contains, Set.mem_sdiff, Set.mem_singleton_iff]
    exact and_comm
  | renumber f => simp [HintMask.obey, Change.act, contains_renumber, h.contains]

theorem describes_foldl (h : m.Describes s) (changes : List Change) :
    (changes.foldl HintMask.obey m).Describes (changes.foldl Change.act s) := by
  induction changes generalizing m s with
  | nil => exact h
  | cons change changes ih => exact ih (h.obey change)

theorem describes_empty : empty.Describes ∅ := describes_of_contains (by simp)

theorem Describes.eq_iff {m' : HintMask} {s' : Set ℕ} (h : m.Describes s) (h' : m'.Describes s') :
    m' = m ↔ s' = s := by
  constructor
  · rintro rfl
    ext n
    rw [← h.contains, ← h'.contains]
  · rintro rfl
    ext n
    rw [Bool.eq_iff_iff, h.contains, h'.contains]

/-- After any changes a mask stands for the set that they describe, and the row of bytes after the
same changes looks like the mask. After other changes mask and row are the same exactly if these
describe the same set. -/
theorem describes_after (changes : List Change) :
    (after changes).Describes (described changes) ∧
      (PackedMask.after changes).Packs (after changes) ∧
      ∀ changes', (after changes' = after changes ↔ described changes' = described changes) ∧
        (PackedMask.after changes' = PackedMask.after changes ↔
          described changes' = described changes) := by
  have hdescribes (changes : List Change) : (after changes).Describes (described changes) :=
    describes_foldl describes_empty changes
  refine ⟨hdescribes changes, ?_, fun changes' => ?_⟩
  · rw [← PackedMask.unpack_after]
    exact PackedMask.packs_unpack _
  · have hiff := (hdescribes changes).eq_iff (hdescribes changes')
    refine ⟨hiff, ?_⟩
    rw [← PackedMask.unpack_injective.eq_iff, PackedMask.unpack_after, PackedMask.unpack_after,
      hiff]

/-- Bytes with zeros behind them, and a stem that comes and goes, leave no trace. -/
example : PackedMask.after [.read [0x40, 0, 0], .insert 20, .erase 20] =
    PackedMask.after [.insert 1] := by decide

end HintMask

end Letterform
