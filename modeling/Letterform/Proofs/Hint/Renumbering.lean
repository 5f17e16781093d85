import Letterform.Proofs.Except
import Letterform.Proofs.Hint.Mask
import Letterform.Proofs.Hint.Place

/-!
# Stems under new numbers

Reading a charstring gives the stems new numbers: their places in the order of declaration. Lists
of stems are compared by the stems in them, and a mask with new numbers selects the same stems.
-/

namespace Letterform

open Scalar (Agree IsFixed units agree_of_units)

variable {α : Type} [Scalar α]

namespace StemHints

def renumber (h : StemHints α) (f : ℕ → ℕ) : StemHints α where
  horizontal := h.horizontal.map fun s => { s with number := f s.number }
  vertical := h.vertical.map fun s => { s with number := f s.number }
  next := h.next

/-- The starts and widths of the stems of an axis that a mask selects. -/
def selected (h : StemHints α) (axis : Axis) (mask : HintMask) : List (α × α) :=
  ((h.onAxis axis).filter fun s => mask.contains s.number).map fun s => (s.start, s.width)

end StemHints

variable [LawfulScalar α]

structure Stem.AgreesAs (f : ℕ → ℕ) (s t : Stem α) : Prop where
  start : Agree s.start t.start
  width : Agree s.width t.width
  number : s.number = f t.number

structure Stem.ReadAs (t : Stem α) (s : α × α) : Prop where
  start : Agree t.start s.1
  width : Agree t.width s.2

namespace StemHints

theorem agreesAs_of_map_eq {f : ℕ → ℕ} {stems others : List (Stem α)}
    (hstems : ∀ s ∈ stems, s.IsSmall) (hothers : ∀ t ∈ others, t.IsSmall)
    (heq : stems.map (fun s => (s.place, s.number)) = others.map fun t => (t.place, f t.number)) :
    List.Forall₂ (Stem.AgreesAs f) stems others := by
  induction stems generalizing others with
  | nil =>
    obtain rfl := List.map_eq_nil_iff.mp heq.symm
    exact .nil
  | cons s stems ih =>
    obtain ⟨t, rest, rfl, hfirst, hrest⟩ := List.map_eq_cons_iff.mp heq.symm
    obtain ⟨hs, hstems⟩ := List.forall_mem_cons.mp hstems
    obtain ⟨ht, hothers⟩ := List.forall_mem_cons.mp hothers
    obtain ⟨hplace, hnumber⟩ := Prod.mk.inj hfirst
    obtain ⟨hstart, hwidth⟩ := Prod.mk.inj (toLex.injective hplace)
    refine .cons ⟨?_, ?_, hnumber.symm⟩ (ih hstems hothers hrest.symm)
    · exact agree_of_units hs.start.onGrid.1 ht.start.onGrid.1 hstart.symm hs.start.bound.1
        hs.start.bound.2
    · exact agree_of_units hs.width.onGrid.1 ht.width.onGrid.1 hwidth.symm hs.width.bound.1
        hs.width.bound.2

theorem agreesAs_of_perm {f : ℕ → ℕ} {stems others : List (Stem α)} (hstems : IsSorted stems)
    (hothers : IsSorted others)
    (hperm : (stems.map fun s => (s.place, s.number)).Perm
      (others.map fun t => (t.place, f t.number))) :
    List.Forall₂ (Stem.AgreesAs f) stems others := by
  have hleft : (stems.map fun s => (s.place, s.number)).Pairwise fun p q => p.1 < q.1 :=
    List.pairwise_map.mpr hstems.pairwise
  have hright : (others.map fun t => (t.place, f t.number)).Pairwise fun p q => p.1 < q.1 :=
    List.pairwise_map.mpr hothers.pairwise
  exact agreesAs_of_map_eq hstems.small hothers.small
    (hperm.eq_of_pairwise (fun p q _ _ hpq hqp => absurd hqp hpq.asymm) hleft hright)

-- ---------------------------------------------------------------------------
-- Stems in their order of declaration
-- ---------------------------------------------------------------------------

theorem map_numbered {numbers : List ℕ} {n : ℕ} {stems : List (α × α)} {declared : List (Stem α)}
    (hread : List.Forall₂ Stem.ReadAs declared stems)
    (hnumbers : ∀ i (hi : i < declared.length), numbers.idxOf declared[i].number = n + i) :
    (numbered n stems).map (fun s => (s.place, s.number)) =
      declared.map fun t => (t.place, numbers.idxOf t.number) := by
  induction hread generalizing n with
  | nil => rfl
  | @cons t s declared stems hts _ ih =>
    obtain ⟨start, width⟩ := s
    have hfirst : numbers.idxOf t.number = n := hnumbers 0 (Nat.succ_pos _)
    have hrest (i : ℕ) (hi : i < declared.length) :
        numbers.idxOf declared[i].number = n + 1 + i := by
      rw [Nat.add_right_comm]
      exact hnumbers (i + 1) (Nat.succ_lt_succ hi)
    rw [numbered_cons, List.map_cons, List.map_cons, ih hrest, hfirst, Stem.place, Stem.place,
      hts.start.units_eq, hts.width.units_eq]

theorem numbered_small {n : ℕ} {stems : List (α × α)} {declared : List (Stem α)}
    (hread : List.Forall₂ Stem.ReadAs declared stems) : ∀ s ∈ numbered n stems, s.IsSmall := by
  induction hread generalizing n with
  | nil => exact nofun
  | @cons t s declared stems hts _ ih =>
    obtain ⟨start, width⟩ := s
    rw [numbered_cons]
    exact List.forall_mem_cons.mpr ⟨⟨hts.start.right, hts.width.right⟩, ih⟩

theorem IsOrderly.nodup_order {h : StemHints α} (horderly : h.IsOrderly) : h.order.Nodup := by
  have hperm := ((h.perm_declared .horizontal).append (h.perm_declared .vertical)).map (·.number)
  exact (hperm.trans horderly.numbers).nodup_iff.mpr List.nodup_range

theorem IsOrderly.idxOf_order {h : StemHints α} (horderly : h.IsOrderly) :
    (∀ i (hi : i < (h.declared .horizontal).length),
      h.order.idxOf (h.declared .horizontal)[i].number = 0 + i) ∧
    ∀ i (hi : i < (h.declared .vertical).length),
      h.order.idxOf (h.declared .vertical)[i].number = (h.declared .horizontal).length + i := by
  have hnodup := horderly.nodup_order
  refine ⟨fun i hi => ?_, fun i hi => ?_⟩
  · have hlt : i < h.order.length := by
      rw [order, List.length_map, List.length_append]
      omega
    have hget : h.order[i] = (h.declared .horizontal)[i].number := by
      simp only [order, List.getElem_map, List.getElem_append_left hi]
    rw [← hget, hnodup.idxOf_getElem, Nat.zero_add]
  · have hlt : (h.declared .horizontal).length + i < h.order.length := by
      rw [order, List.length_map, List.length_append]
      omega
    have hget : h.order[(h.declared .horizontal).length + i] =
        (h.declared .vertical)[i].number := by
      simp [order]
    rw [← hget, hnodup.idxOf_getElem]

theorem IsOrderly.nodup_numbered {h : StemHints α} (horderly : h.IsOrderly) {axis : Axis} {n : ℕ}
    {stems : List (α × α)} {numbers : List ℕ}
    (hmap : (numbered n stems).map (fun s => (s.place, s.number)) =
      (h.declared axis).map fun t => (t.place, numbers.idxOf t.number)) :
    ((numbered n stems).map Stem.place).Nodup := by
  have hplaces := congrArg (List.map Prod.fst) hmap
  rw [List.map_map, List.map_map] at hplaces
  have hperm := (h.perm_declared axis).map Stem.place
  rw [show (numbered n stems).map Stem.place = (h.declared axis).map Stem.place from hplaces,
    hperm.nodup_iff]
  exact List.pairwise_map.mpr ((horderly.sorted axis).pairwise.imp fun hlt => hlt.ne)

theorem addAll_declared {h : StemHints α} (horderly : h.IsOrderly)
    {horizontal vertical : List (α × α)}
    (hh : List.Forall₂ Stem.ReadAs (h.declared .horizontal) horizontal)
    (hv : List.Forall₂ Stem.ReadAs (h.declared .vertical) vertical) :
    ∃ h', addAll (horizontal.map (.horizontal, ·) ++ vertical.map (.vertical, ·)) {} =
        some (List.range h.count, h') ∧
      h'.next = h.next ∧
      ∀ axis, List.Forall₂ (Stem.AgreesAs h.order.idxOf) (h'.onAxis axis) (h.onAxis axis) := by
  obtain ⟨hfirst, hsecond⟩ := horderly.idxOf_order
  have hhl := hh.length_eq
  have hvl := hv.length_eq
  have hcount : h.count = horizontal.length + vertical.length := by
    rw [← hhl, ← hvl, (h.perm_declared .horizontal).length_eq, (h.perm_declared .vertical).length_eq]
    rfl
  rw [hhl] at hsecond
  have hhmap := map_numbered hh hfirst
  have hvmap := map_numbered hv hsecond
  have hlimit := horderly.counting.2
  obtain ⟨h1, hadd1, hsorted1, hperm1, hother1⟩ := isCounting_empty.addAll_new .horizontal
    isSorted_nil (numbered_small hh) (horderly.nodup_numbered hhmap)
    (by show 0 + _ ≤ _; omega)
  have hempty : h1.onAxis .vertical = [] := hother1 .vertical (by decide)
  have hcount1 : h1.count = horizontal.length := by
    show (h1.onAxis .horizontal).length + (h1.onAxis .vertical).length = _
    rw [hempty, hperm1.length_eq]
    simp [numbered, onAxis]
  rw [← hcount1] at hvmap
  have hcounting1 := isCounting_empty.addAll hadd1
  obtain ⟨h2, hadd2, hsorted2, hperm2, hother2⟩ := hcounting1.addAll_new .vertical
    (hempty ▸ isSorted_nil) (numbered_small hv) (hempty ▸ horderly.nodup_numbered hvmap)
    (by omega)
  rw [hempty, List.nil_append] at hperm2
  have hcount2 : h2.count = h.count := by
    show (h2.onAxis .horizontal).length + (h2.onAxis .vertical).length = _
    rw [hother2 .horizontal (by decide), hperm1.length_eq, hperm2.length_eq, hcount]
    simp [numbered, onAxis]
  refine ⟨h2, addAll_append.mpr ⟨_, h1, _, hadd1, hadd2, ?_⟩, ?_, fun axis => ?_⟩
  · show List.range h.count =
      List.range' 0 horizontal.length ++ List.range' h1.count vertical.length
    rw [hcount, hcount1, List.range_eq_range', ← List.range'_append_1, Nat.zero_add]
  · rw [(hcounting1.addAll hadd2).1, horderly.counting.1, hcount2]
  · cases axis with
    | horizontal =>
      rw [hother2 .horizontal (by decide)]
      refine agreesAs_of_perm hsorted1 (horderly.sorted .horizontal) ?_
      refine (hperm1.map _).trans ?_
      rw [show ({} : StemHints α).onAxis .horizontal = [] from rfl, List.nil_append]
      exact hhmap ▸ (h.perm_declared .horizontal).map _
    | vertical =>
      refine agreesAs_of_perm hsorted2 (horderly.sorted .vertical) ?_
      exact (hperm2.map _).trans (hvmap ▸ (h.perm_declared .vertical).map _)

theorem isOrderly_of_readAs {h : StemHints α} {stems : List (Axis × α × α)} {numbers : List ℕ}
    (hadd : addAll stems {} = some (numbers, h)) {horizontal vertical : List (α × α)}
    (hh : List.Forall₂ Stem.ReadAs (h.declared .horizontal) horizontal)
    (hv : List.Forall₂ Stem.ReadAs (h.declared .vertical) vertical) : h.IsOrderly := by
  have hsmall {declared : List (Stem α)} {read : List (α × α)}
      (hread : List.Forall₂ Stem.ReadAs declared read) : ∀ s ∈ declared, s.IsSmall := by
    intro s hs
    obtain ⟨_, -, hs⟩ := exists_of_forall₂ hread.flip hs
    exact ⟨hs.start.left, hs.width.left⟩
  have hdeclared (axis : Axis) : ∀ s ∈ h.declared axis, s.IsSmall := by
    cases axis with
    | horizontal => exact hsmall hh
    | vertical => exact hsmall hv
  exact isOrderly_empty.addAll hadd fun axis s hs =>
    hdeclared axis s ((h.perm_declared axis).mem_iff.mpr hs)

/-- Stems that a glyph has been given get their places in the order of declaration as numbers when
they are read. -/
theorem addAll_read {h : StemHints α} {stems : List (Axis × α × α)} {numbers : List ℕ}
    (hadd : addAll stems {} = some (numbers, h)) {horizontal vertical : List (α × α)}
    (hh : List.Forall₂ Stem.ReadAs (h.declared .horizontal) horizontal)
    (hv : List.Forall₂ Stem.ReadAs (h.declared .vertical) vertical) :
    ∃ h', addAll (horizontal.map (.horizontal, ·) ++ vertical.map (.vertical, ·)) {} =
        some (List.range h.count, h') ∧
      h'.next = h.next ∧
      ∀ axis, List.Forall₂ (Stem.AgreesAs h.order.idxOf) (h'.onAxis axis) (h.onAxis axis) :=
  addAll_declared (isOrderly_of_readAs hadd hh hv) hh hv

-- ---------------------------------------------------------------------------
-- Declaring them again
-- ---------------------------------------------------------------------------

def declaredBefore (h : StemHints α) : Axis → ℕ
  | .horizontal => 0
  | .vertical => (h.declared .horizontal).length

theorem IsOrderly.map_idxOf_order {h : StemHints α} (horderly : h.IsOrderly) (axis : Axis) :
    (h.declared axis).map (fun t => h.order.idxOf t.number) =
      List.range' (h.declaredBefore axis) (h.declared axis).length := by
  refine List.ext_getElem (by simp) fun i hi _ => ?_
  rw [List.length_map] at hi
  rw [List.getElem_map, List.getElem_range', one_mul]
  cases axis with
  | horizontal => exact horderly.idxOf_order.1 i hi
  | vertical => exact horderly.idxOf_order.2 i hi

omit [Scalar α] [LawfulScalar α] in
theorem pairwise_declared (h : StemHints α) (axis : Axis) :
    (h.declared axis).Pairwise fun s t => s.number ≤ t.number := by
  have hsort : (h.declared axis).Pairwise fun s t => decide (s.number ≤ t.number) = true := by
    refine List.pairwise_mergeSort (fun s t u hst htu => ?_) (fun s t => ?_) (h.onAxis axis)
    · rw [decide_eq_true_eq] at hst htu ⊢
      exact hst.trans htu
    · rw [Bool.or_eq_true, decide_eq_true_eq, decide_eq_true_eq]
      exact le_total _ _
  exact hsort.imp of_decide_eq_true

/-- Where stems have their places in the order of declaration as numbers, they are declared in
this order again. -/
theorem IsOrderly.declared_agreesAs {h h' : StemHints α} (horderly : h.IsOrderly)
    (hagrees : ∀ axis, List.Forall₂ (Stem.AgreesAs h.order.idxOf) (h'.onAxis axis) (h.onAxis axis))
    (axis : Axis) :
    List.Forall₂ (Stem.AgreesAs h.order.idxOf) (h'.declared axis) (h.declared axis) ∧
      (h'.declared axis).map (·.number) =
        List.range' (h.declaredBefore axis) (h.declared axis).length := by
  obtain ⟨stems, hperm, hstems⟩ :
      Relation.Comp List.Perm (List.Forall₂ (Stem.AgreesAs h.order.idxOf)) (h'.onAxis axis)
        (h.declared axis) := by
    rw [← List.forall₂_comp_perm_eq_perm_comp_forall₂]
    exact ⟨_, hagrees axis, (h.perm_declared axis).symm⟩
  have hnumbers : stems.map (·.number) =
      List.range' (h.declaredBefore axis) (h.declared axis).length := by
    rw [← horderly.map_idxOf_order axis]
    clear hperm
    generalize h.declared axis = declared at hstems ⊢
    induction hstems with
    | nil => rfl
    | cons hst _ ih => rw [List.map_cons, List.map_cons, hst.number, ih]
  have hsorted : stems.Pairwise fun s t => s.number ≤ t.number := by
    rw [← List.pairwise_map (R := (· ≤ ·)), hnumbers]
    exact List.pairwise_le_range'
  have hnodup : (stems.map (·.number)).Nodup := by
    rw [hnumbers]
    exact List.nodup_range'
  have heq : h'.declared axis = stems := by
    have hdeclared := (h'.perm_declared axis).trans hperm
    refine hdeclared.eq_of_pairwise (fun s t hs ht hst hts => ?_) (h'.pairwise_declared axis) hsorted
    exact List.inj_on_of_nodup_map hnodup (hdeclared.mem_iff.mp hs) ht (le_antisymm hst hts)
  rw [heq]
  exact ⟨hstems, hnumbers⟩

theorem IsOrderly.order_agreesAs {h h' : StemHints α} (horderly : h.IsOrderly)
    (hagrees : ∀ axis,
      List.Forall₂ (Stem.AgreesAs h.order.idxOf) (h'.onAxis axis) (h.onAxis axis)) :
    h'.order = List.range h.order.length := by
  rw [order, List.map_append, (horderly.declared_agreesAs hagrees .horizontal).2,
    (horderly.declared_agreesAs hagrees .vertical).2, order, List.length_map, List.length_append,
    List.range_eq_range', ← List.range'_append_1, Nat.zero_add]
  rfl

-- ---------------------------------------------------------------------------
-- Comparing
-- ---------------------------------------------------------------------------

theorem beq_renumber_of_agreesAs {f : ℕ → ℕ} {stems others : List (Stem α)}
    (h : List.Forall₂ (Stem.AgreesAs f) stems others) :
    (stems == others.map fun t => { t with number := f t.number }) = true := by
  induction h with
  | nil => rfl
  | @cons s t stems others hst _ ih =>
    obtain ⟨start, width, number⟩ := s
    have hnumber : number = f t.number := hst.number
    have hs : ((⟨start, width, number⟩ : Stem α) == { t with number := f t.number }) = true := by
      show (start == t.start && (width == t.width && number == f t.number)) = true
      rw [hst.start.beq, hst.width.beq, hnumber]
      simp
    rw [List.map_cons, List.cons_beq_cons, hs, ih]
    rfl

theorem beq_renumber {f : ℕ → ℕ} {h h' : StemHints α} (hnext : h'.next = h.next)
    (hagrees : ∀ axis, List.Forall₂ (Stem.AgreesAs f) (h'.onAxis axis) (h.onAxis axis)) :
    (h' == h.renumber f) = true := by
  obtain ⟨horizontal, vertical, next⟩ := h'
  show (horizontal == _ && (vertical == _ && next == h.next)) = true
  rw [Bool.and_eq_true, Bool.and_eq_true]
  exact ⟨beq_renumber_of_agreesAs (hagrees .horizontal),
    beq_renumber_of_agreesAs (hagrees .vertical), beq_iff_eq.mpr hnext⟩

-- ---------------------------------------------------------------------------
-- Selecting
-- ---------------------------------------------------------------------------

omit [Scalar α] [LawfulScalar α] in
theorem contains_renumber_idxOf (mask : HintMask) {numbers : List ℕ} {n : ℕ} (hn : n ∈ numbers) :
    (mask.renumber numbers.idxOf?).contains (numbers.idxOf n) = mask.contains n := by
  have hlt : numbers.idxOf n < numbers.length := List.idxOf_lt_length_iff.mpr hn
  have hget : numbers[numbers.idxOf n] = n := List.getElem_idxOf hlt
  rw [Bool.eq_iff_iff, HintMask.contains_renumber]
  constructor
  · rintro ⟨k, hk, hfound⟩
    obtain ⟨hi, rfl, -⟩ := List.idxOf?_eq_some_iff.mp hfound
    exact hget ▸ hk
  · intro hmask
    refine ⟨n, hmask, List.idxOf?_eq_some_iff.mpr ⟨hlt, hget, fun j hj heq => ?_⟩⟩
    exact absurd (beq_iff_eq.mpr heq) (Bool.eq_false_iff.mp (List.not_of_lt_findIdx hj))

theorem selected_of_agreesAs {f : ℕ → ℕ} {mask other : HintMask} {stems others : List (Stem α)}
    (h : List.Forall₂ (Stem.AgreesAs f) stems others)
    (hmask : ∀ t ∈ others, other.contains (f t.number) = mask.contains t.number) :
    (((stems.filter fun s => other.contains s.number).map fun s => (s.start, s.width)) ==
      (others.filter fun t => mask.contains t.number).map fun t => (t.start, t.width)) = true := by
  induction h with
  | nil => rfl
  | @cons s t stems others hst _ ih =>
    obtain ⟨hfirst, hrest⟩ := List.forall_mem_cons.mp hmask
    have hsame : other.contains s.number = mask.contains t.number := by rw [hst.number, hfirst]
    rw [List.filter_cons, List.filter_cons, hsame]
    split_ifs
    · rw [List.map_cons, List.map_cons, List.cons_beq_cons, ih hrest, Bool.and_true]
      show (s.start == t.start && s.width == t.width) = true
      rw [hst.start.beq, hst.width.beq]
      rfl
    · exact ih hrest

theorem selected_renumber {h h' : StemHints α}
    (hagrees : ∀ axis, List.Forall₂ (Stem.AgreesAs h.order.idxOf) (h'.onAxis axis) (h.onAxis axis))
    (axis : Axis) (mask : HintMask) :
    (h'.selected axis (mask.renumber h.order.idxOf?) == h.selected axis mask) = true := by
  refine selected_of_agreesAs (hagrees axis) fun t ht => contains_renumber_idxOf mask ?_
  refine List.mem_map_of_mem (List.mem_append.mpr ?_)
  cases axis with
  | horizontal => exact .inl ((h.perm_declared .horizontal).mem_iff.mpr ht)
  | vertical => exact .inr ((h.perm_declared .vertical).mem_iff.mpr ht)

end StemHints

end Letterform
