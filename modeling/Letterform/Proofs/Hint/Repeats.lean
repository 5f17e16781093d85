import Letterform.Proofs.Hint.Requests

/-!
# Stems that are asked for again

A stem that has been asked for is found again after any further additions. It need not be found
under the same number: off the grid a request may have been answered by a neighbour within the
tolerance, and a stem that comes in later, too far from the neighbour to be the same, may match the
request as well and stand before the neighbour. This is the only way in which a number changes, and
it does not happen to a stem that was added by the request itself.
-/

namespace Letterform.StemHints

-- ---------------------------------------------------------------------------
-- The order of a list without duplicates
-- ---------------------------------------------------------------------------

theorem not_sublist_swap {α : Type*} {l : List α} (hl : l.Nodup) {a b : α}
    (hab : [a, b].Sublist l) : ¬ [b, a].Sublist l := by
  induction l with
  | nil => cases hab
  | cons x l ih =>
    obtain ⟨hx, hl⟩ := List.nodup_cons.mp hl
    have hmem {c d : α} (h : [c, d].Sublist (x :: l)) : d ∈ l := by
      rcases List.cons_sublist_cons'.mp h with h | ⟨-, h⟩
      · exact h.subset (List.mem_cons_of_mem _ List.mem_cons_self)
      · exact List.singleton_sublist.mp h
    intro hba
    rcases List.cons_sublist_cons'.mp hab with h | ⟨rfl, -⟩
    · rcases List.cons_sublist_cons'.mp hba with h' | ⟨rfl, -⟩
      · exact ih hl h h'
      · exact hx (hmem hab)
    · exact hx (hmem hba)

theorem sublist_of_find? {α : Type*} {p : α → Bool} {l : List α} {a b : α}
    (hfind : l.find? p = some a) (hb : b ∈ l) (hp : p b = true) (hne : b ≠ a) :
    [a, b].Sublist l := by
  obtain ⟨-, before, after, rfl, hbefore⟩ := List.find?_eq_some_iff_append.mp hfind
  rcases List.mem_append.mp hb with hb | hb
  · have := hbefore b hb
    rw [hp] at this
    cases this
  · have hafter := (List.mem_cons.mp hb).resolve_left hne
    exact ((List.singleton_sublist.mpr hafter).cons_cons a).trans (List.sublist_append_right _ _)

-- ---------------------------------------------------------------------------
-- Additions
-- ---------------------------------------------------------------------------

theorem sublist_obeyAll {h : StemHints Float} {requests : List (Request Float)}
    (hadditions : Request.clear ∉ requests) (axis : Axis) :
    (h.onAxis axis).Sublist ((obeyAll requests h).onAxis axis) := by
  refine obeyAll_induction (P := fun h' => (h.onAxis axis).Sublist (h'.onAxis axis)) (.refl _)
    fun request hrequest h' hkept => hkept.trans ?_
  cases request with
  | clear => exact absurd hrequest hadditions
  | add other start width =>
    rcases h'.obey_cases other start width with ⟨n, h'', hadd, heq⟩ | ⟨-, heq⟩ <;> rw [heq]
    exact sublist_add hadd axis

theorem obeyAll_add {requests additions : List (Request Float)} {axis : Axis} {start width : Float}
    {n : ℕ} {h : StemHints Float}
    (hadd : (obeyAll requests {}).add axis start width = some (n, h)) :
    obeyAll (requests ++ .add axis start width :: additions) {} = obeyAll additions h := by
  have hobey : ((obeyAll requests {}).obey (.add axis start width)).2 = h := by rw [obey, hadd]
  rw [obeyAll, List.foldl_append, List.foldl_cons]
  exact congrArg (obeyAll additions) hobey

theorem IsNumbered.nodup {h : StemHints Float} (hh : h.IsNumbered) (axis : Axis) :
    (h.onAxis axis).Nodup :=
  (nodup_numbers hh.numbers axis).of_map _

theorem IsNumbered.eq_of_number {h : StemHints Float} (hh : h.IsNumbered) {axis : Axis}
    {s t : Stem Float} (hs : s ∈ h.onAxis axis) (ht : t ∈ h.onAxis axis)
    (hnumber : s.number = t.number) : s = t :=
  List.inj_on_of_nodup_map (nodup_numbers hh.numbers axis) hs ht hnumber

theorem IsNumbered.number_lt {h : StemHints Float} (hh : h.IsNumbered) {axis : Axis}
    {s : Stem Float} (hs : s ∈ h.onAxis axis) : s.number < h.count := by
  refine List.mem_range.mp (hh.numbers.mem_iff.mp (List.mem_map_of_mem ?_))
  cases axis with
  | horizontal => exact List.mem_append_left _ hs
  | vertical => exact List.mem_append_right _ hs

theorem IsNumbered.eq_of_new {h h' : StemHints Float} (hh : h.IsNumbered) {axis : Axis}
    {start width : Float} (hadd : h.add axis start width = some (h.count, h')) {s : Stem Float}
    (hs : s ∈ h'.onAxis axis) (hnumber : s.number = h.count) : s = ⟨start, width, h.count⟩ := by
  rcases add_cases hadd with ⟨t, ht, -, htnumber, -⟩ | ⟨-, -, -, hinsert, -⟩
  · exact absurd (hh.number_lt ht) (by omega)
  · refine (hh.add hadd).eq_of_number hs ?_ hnumber
    rw [hinsert]
    exact (perm_insert _ _).mem_iff.mpr List.mem_cons_self

/-- A stem that was asked for is answered again after any additions, and nothing is added. The
number is another one exactly if a stem that came in since then matches as well and stands before
the stem that had answered; a stem that the first request added keeps its number. -/
theorem add_again {requests additions : List (Request Float)} {axis : Axis} {start width : Float}
    {n : ℕ} {h : StemHints Float} (hstart : start.isFinite = true) (hwidth : width.isFinite = true)
    (hadd : (obeyAll requests {}).add axis start width = some (n, h))
    (hadditions : Request.clear ∉ additions) :
    ∃ m, (obeyAll additions h).add axis start width = some (m, obeyAll additions h) ∧
      (m ≠ n ↔ ∃ s t, [t, s].Sublist ((obeyAll additions h).onAxis axis) ∧ s.number = n ∧
        t ∉ h.onAxis axis ∧ s.isAt start width = true ∧ t.isAt start width = true) ∧
      (n = (obeyAll requests {}).count → m = n) := by
  obtain ⟨s, hfind, rfl⟩ := find?_of_add hstart hwidth hadd
  have hs : s.isAt start width = true := by simpa using List.find?_some hfind
  have hkept := sublist_obeyAll (h := h) hadditions axis
  have hlater : (obeyAll additions h).IsNumbered := obeyAll_add hadd ▸ isNumbered_obeyAll _
  generalize obeyAll additions h = later at *
  have hmem : s ∈ later.onAxis axis := hkept.subset (List.mem_of_find?_eq_some hfind)
  obtain ⟨t, hfound⟩ : ∃ t, (later.onAxis axis).find? (·.isAt start width) = some t :=
    Option.isSome_iff_exists.mp (List.find?_isSome.mpr ⟨s, hmem, hs⟩)
  have ht : t.isAt start width = true := by simpa using List.find?_some hfound
  have hchanged : t.number ≠ s.number → [t, s].Sublist (later.onAxis axis) := fun hne =>
    sublist_of_find? hfound hmem hs fun heq => hne (heq ▸ rfl)
  refine ⟨t.number, ?_, ⟨fun hne => ?_, ?_⟩, fun hnew => ?_⟩
  · rw [StemHints.add, hfound]
  · have hbefore := hchanged hne
    refine ⟨s, t, hbefore, rfl, fun hold => ?_, hs, ht⟩
    have hafter := sublist_of_find? hfind hold ht fun heq => hne (heq ▸ rfl)
    exact not_sublist_swap (hlater.nodup axis) hbefore (hafter.trans hkept)
  · rintro ⟨s', u, hbefore, hnumber, -, -, hu⟩ hsame
    obtain rfl := hlater.eq_of_number (hbefore.subset (by simp)) hmem hnumber
    obtain rfl := hlater.eq_of_number (List.mem_of_find?_eq_some hfound) hmem hsame
    have hne : u ≠ t := by
      rintro rfl
      simpa using (hlater.nodup axis).sublist hbefore
    exact not_sublist_swap (hlater.nodup axis) hbefore
      (sublist_of_find? hfound (hbefore.subset (by simp)) hu hne)
  · by_contra hne
    obtain rfl := (isNumbered_obeyAll requests).eq_of_new (hnew ▸ hadd)
      (List.mem_of_find?_eq_some hfind) hnew
    exact (List.pairwise_iff_forall_sublist.mp (hlater.distinct axis) (hchanged hne)).1 ht

def neighbour : Stem Float := ⟨10, 50, 0⟩

def newcomer : Stem Float := ⟨9.9994140625, 50, 1⟩

/-- A request that is answered by a neighbour within the tolerance. The newcomer is new to the
neighbour, matches the request and stands before the neighbour. -/
theorem add_again_near :
    (obeyAll [.add .horizontal 10 50] {}).add .horizontal 9.999609375 50 =
        some (0, ⟨[neighbour], [], some 1⟩) ∧
      ∃ m, (obeyAll [.add .horizontal 9.9994140625 50] ⟨[neighbour], [], some 1⟩).add .horizontal
          9.999609375 50 =
        some (m, obeyAll [.add .horizontal 9.9994140625 50] ⟨[neighbour], [], some 1⟩) ∧ m ≠ 0 := by
  have hadd : (obeyAll [.add .horizontal 10 50] {}).add .horizontal 9.999609375 50 =
      some (0, ⟨[neighbour], [], some 1⟩) := by decide +kernel
  have hlater : (obeyAll [.add .horizontal 9.9994140625 50] ⟨[neighbour], [], some 1⟩).onAxis .horizontal =
      [newcomer, neighbour] := by decide +kernel
  have hadditions : Request.clear ∉ [Request.add .horizontal 9.9994140625 50] := by simp
  obtain ⟨m, hagain, hchanged, -⟩ :=
    add_again (by decide +kernel) (by decide +kernel) hadd hadditions
  refine ⟨hadd, m, hagain, hchanged.mpr ⟨neighbour, newcomer, ?_, rfl, fun hmem => ?_, ?_, ?_⟩⟩
  · rw [hlater]
  · exact absurd (congrArg Stem.number (List.mem_singleton.mp hmem)) (by decide)
  · decide +kernel
  · decide +kernel

-- ---------------------------------------------------------------------------
-- On the grid
-- ---------------------------------------------------------------------------

/-- A request with a start and a width on the grid, as far as they are numbers. -/
def Request.IsGridded : Request Float → Prop
  | .add _ start width => Double.IsGridded start ∧ Double.IsGridded width
  | .clear => True

theorem isClose_trans_gridded {x y z : Float} (hx : Double.IsGridded x) (hy : Double.IsGridded y)
    (hz : Double.IsGridded z) (hxz : Scalar.isClose x z = true) (hyz : Scalar.isClose y z = true) :
    Scalar.isClose x y = true := by
  obtain ⟨j, hxj, hzj⟩ := hx.eq_of_isClose hz hxz
  obtain ⟨k, hyk, hzk⟩ := hy.eq_of_isClose hz hyz
  exact Double.isClose_of_beq hyk ((Double.beq_iff hxj hyk).mpr (hzj.unique hzk))

theorem gridded_add {h h' : StemHints Float} {axis other : Axis} {start width : Float} {n : ℕ}
    (hstart : Double.IsGridded start) (hwidth : Double.IsGridded width)
    (hadd : h.add axis start width = some (n, h'))
    (hh : ∀ s ∈ h.onAxis other, Double.IsGridded s.start ∧ Double.IsGridded s.width) :
    ∀ s ∈ h'.onAxis other, Double.IsGridded s.start ∧ Double.IsGridded s.width := by
  rcases add_cases hadd with ⟨_, _, _, _, rfl⟩ | ⟨-, -, -, hinsert, hother⟩
  · exact hh
  by_cases hne : other = axis
  · subst hne
    rw [hinsert]
    intro s hs
    rcases List.mem_cons.mp ((perm_insert _ _).mem_iff.mp hs) with rfl | hs
    · exact ⟨hstart, hwidth⟩
    · exact hh s hs
  · exact hother other hne ▸ hh

theorem gridded_obeyAll {requests : List (Request Float)}
    (hgridded : ∀ request ∈ requests, request.IsGridded) (axis : Axis) :
    ∀ s ∈ (obeyAll requests {}).onAxis axis,
      Double.IsGridded s.start ∧ Double.IsGridded s.width := by
  refine obeyAll_induction (P := fun h => ∀ s ∈ h.onAxis axis,
    Double.IsGridded s.start ∧ Double.IsGridded s.width) ?_ fun request hrequest h hh => ?_
  · cases axis <;> exact nofun
  have hrequest := hgridded request hrequest
  cases request with
  | clear => cases axis <;> exact nofun
  | add other start width =>
    rcases h.obey_cases other start width with ⟨n, h', hadd, heq⟩ | ⟨-, heq⟩ <;> rw [heq]
    · exact gridded_add hrequest.1 hrequest.2 hadd hh
    · exact hh

theorem add_again_gridded {requests additions : List (Request Float)} {axis : Axis}
    {start width : Float} {n : ℕ} {h : StemHints Float} (hstart : start.isFinite = true)
    (hwidth : width.isFinite = true)
    (hadd : (obeyAll requests {}).add axis start width = some (n, h))
    (hadditions : Request.clear ∉ additions)
    (hgridded : ∀ request ∈ requests ++ .add axis start width :: additions, request.IsGridded) :
    (obeyAll additions h).add axis start width = some (n, obeyAll additions h) := by
  have hlater := isNumbered_obeyAll (requests ++ .add axis start width :: additions)
  have hstems := gridded_obeyAll hgridded axis
  rw [obeyAll_add hadd] at hlater hstems
  obtain ⟨hstartg, hwidthg⟩ : Double.IsGridded start ∧ Double.IsGridded width :=
    hgridded (.add axis start width) (by simp)
  obtain ⟨m, hagain, hchanged, -⟩ := add_again hstart hwidth hadd hadditions
  suffices hsame : m = n from hsame ▸ hagain
  by_contra hne
  obtain ⟨s, t, hbefore, -, -, hs, ht⟩ := hchanged.mp hne
  have hsg := hstems s (hbefore.subset (by simp))
  have htg := hstems t (hbefore.subset (by simp))
  rw [Stem.isAt, Bool.and_eq_true] at hs ht
  have hmatch : t.Matches s := by
    rw [Stem.Matches, Stem.isAt, isClose_trans_gridded htg.1 hsg.1 hstartg ht.1 hs.1,
      isClose_trans_gridded htg.2 hsg.2 hwidthg ht.2 hs.2]
    rfl
  exact (List.pairwise_iff_forall_sublist.mp (hlater.distinct axis) hbefore).1 hmatch

end Letterform.StemHints
