import Letterform.Proofs.Number.Comparison
import Letterform.Proofs.Number.Double

/-!
# The order of all doubles

Doubles compare as numbers between two infinities, except for those that are not numbers, which
compare with nothing. So the least and the greatest of some doubles are found by picking from two at
a time: what is no number is given up for anything else.
-/

namespace Letterform.Double

open Float.Model (UnpackedFloat)

/-- Where a double stands among all others, if it is a number. -/
def rank : UnpackedFloat → Option (WithBot (WithTop ℚ))
  | .notANumber => none
  | .infinity .negative => some ⊥
  | .infinity .positive => some (⊤ : WithTop ℚ)
  | u => some ((value u : WithTop ℚ) : WithBot (WithTop ℚ))

theorem rank_of_standsFor {x : Float} {q : ℚ} (h : StandsFor x q) :
    rank (unpacked x) = some ((q : WithTop ℚ) : WithBot (WithTop ℚ)) := by
  rcases h.cases with ⟨s, hu, -⟩ | ⟨s, m, e, hm, hu, -⟩ <;> rw [← h.value_eq, hu] <;> rfl

theorem isSome_rank_iff (x : Float) : (rank (unpacked x)).isSome = true ↔ (x == x) = true := by
  rw [beq_self_iff]
  rcases unpacked x with s | _ | s | ⟨s, m, e, hm⟩
  · cases s <;> simp [rank]
  · simp [rank]
  · simp [rank]
  · simp [rank]

theorem cases_rank (x : Float) : unpacked x = .notANumber ∨ unpacked x = .infinity .negative ∨
    unpacked x = .infinity .positive ∨ ∃ q, StandsFor x q := by
  rcases hu : unpacked x with s | _ | s | ⟨s, m, e, hm⟩
  · cases s
    · exact .inr (.inl rfl)
    · exact .inr (.inr (.inl rfl))
  · exact .inl rfl
  · exact .inr (.inr (.inr ⟨_, by rw [StandsFor, hu]; exact ⟨rfl, rfl⟩⟩))
  · exact .inr (.inr (.inr ⟨_, by rw [StandsFor, hu]; exact ⟨rfl, rfl⟩⟩))

/-- What compares with nothing, with the infinities and with a number in these ways compares as a
rank does. -/
theorem compare_eq_of_cases {u : UnpackedFloat} {p : WithBot (WithTop ℚ)} {y : Float}
    (hnone : u.compare .notANumber = none)
    (hbot : u.compare (.infinity .negative) = some (cmp p ⊥))
    (htop : u.compare (.infinity .positive) = some (cmp p (⊤ : WithTop ℚ)))
    (hnumber : ∀ q, StandsFor y q →
      u.compare (unpacked y) = some (cmp p ((q : WithTop ℚ) : WithBot (WithTop ℚ)))) :
    u.compare (unpacked y) = (rank (unpacked y)).map (cmp p) := by
  rcases cases_rank y with hy | hy | hy | ⟨q, hy⟩
  · rw [hy, hnone]
    rfl
  · rw [hy, hbot]
    rfl
  · rw [hy, htop]
    rfl
  · rw [hnumber q hy, rank_of_standsFor hy]
    rfl

theorem compare_eq (x y : Float) :
    (unpacked x).compare (unpacked y) =
      (rank (unpacked x)).bind fun p => (rank (unpacked y)).map (cmp p) := by
  have hmono : StrictMono fun q : ℚ => ((q : WithTop ℚ) : WithBot (WithTop ℚ)) :=
    WithBot.coe_strictMono.comp WithTop.coe_strictMono
  have hbelow (q : ℚ) : (⊥ : WithBot (WithTop ℚ)) < ((q : WithTop ℚ) : WithBot (WithTop ℚ)) :=
    WithBot.bot_lt_coe _
  have habove (q : ℚ) : ((q : WithTop ℚ) : WithBot (WithTop ℚ)) < ((⊤ : WithTop ℚ) : WithBot _) :=
    WithBot.coe_lt_coe.mpr (WithTop.coe_lt_top q)
  have hends : (⊥ : WithBot (WithTop ℚ)) < ((⊤ : WithTop ℚ) : WithBot _) := WithBot.bot_lt_coe _
  rcases cases_rank x with hx | hx | hx | ⟨p, hx⟩
  · rw [hx]
    rfl
  · rw [hx]
    refine compare_eq_of_cases rfl ?_ ?_ fun q hy => ?_
    · rw [cmp_self_eq_eq]
      rfl
    · rw [hends.cmp_eq_lt]
      rfl
    · rw [(hbelow q).cmp_eq_lt]
      rcases hy.cases with ⟨s, hu, -⟩ | ⟨s, m, e, hm, hu, -⟩ <;> rw [hu] <;> rfl
  · rw [hx]
    refine compare_eq_of_cases rfl ?_ ?_ fun q hy => ?_
    · rw [hends.cmp_eq_gt]
      rfl
    · rw [cmp_self_eq_eq]
      rfl
    · rw [(habove q).cmp_eq_gt]
      rcases hy.cases with ⟨s, hu, -⟩ | ⟨s, m, e, hm, hu, -⟩ <;> rw [hu] <;> rfl
  · rw [rank_of_standsFor hx]
    refine compare_eq_of_cases ?_ ?_ ?_ fun q hy => ?_
    · rcases hx.cases with ⟨s, hu, -⟩ | ⟨s, m, e, hm, hu, -⟩ <;> rw [hu] <;> rfl
    · rw [(hbelow p).cmp_eq_gt]
      rcases hx.cases with ⟨s, hu, -⟩ | ⟨s, m, e, hm, hu, -⟩ <;> rw [hu] <;> rfl
    · rw [(habove p).cmp_eq_lt]
      rcases hx.cases with ⟨s, hu, -⟩ | ⟨s, m, e, hm, hu, -⟩ <;> rw [hu] <;> rfl
    · rw [compare_unpacked hx hy, hmono.cmp_map_eq p q]

theorem lt_iff_rank {x y : Float} : x < y ↔
    ∃ p q, rank (unpacked x) = some p ∧ rank (unpacked y) = some q ∧ p < q := by
  rw [lt_iff_compare, compare_eq]
  simp [Option.bind_eq_some_iff, cmp_eq_lt_iff]

theorem le_iff_rank {x y : Float} : x ≤ y ↔
    ∃ p q, rank (unpacked x) = some p ∧ rank (unpacked y) = some q ∧ p ≤ q := by
  have hle {p q : WithBot (WithTop ℚ)} : (cmp p q).isLE = true ↔ p ≤ q := by
    rcases lt_trichotomy p q with h | rfl | h
    · simp [h.cmp_eq_lt, h.le]
    · simp
    · simp [h.cmp_eq_gt, h]
  rw [le_iff_compare, compare_eq, Option.any_eq_true]
  simp [Option.bind_eq_some_iff, hle]

theorem le_trans {x y z : Float} (hxy : x ≤ y) (hyz : y ≤ z) : x ≤ z := by
  obtain ⟨p, q, hx, hy, hpq⟩ := le_iff_rank.mp hxy
  obtain ⟨q', r, hy', hz, hqr⟩ := le_iff_rank.mp hyz
  obtain rfl := Option.some.inj (hy.symm.trans hy')
  exact le_iff_rank.mpr ⟨p, r, hx, hz, hpq.trans hqr⟩

theorem le_of_lt {x y : Float} (h : x < y) : x ≤ y := by
  obtain ⟨p, q, hx, hy, hpq⟩ := lt_iff_rank.mp h
  exact le_iff_rank.mpr ⟨p, q, hx, hy, hpq.le⟩

theorem le_of_not_lt {x y : Float} (hx : (x == x) = true) (hy : (y == y) = true) (h : ¬ y < x) :
    x ≤ y := by
  obtain ⟨p, hp⟩ := Option.isSome_iff_exists.mp ((isSome_rank_iff x).mpr hx)
  obtain ⟨q, hq⟩ := Option.isSome_iff_exists.mp ((isSome_rank_iff y).mpr hy)
  exact le_iff_rank.mpr ⟨p, q, hp, hq, not_lt.mp fun hlt => h (lt_iff_rank.mpr ⟨q, p, hq, hp, hlt⟩)⟩

theorem le_self {x : Float} (hx : (x == x) = true) : x ≤ x := by
  obtain ⟨p, hp⟩ := Option.isSome_iff_exists.mp ((isSome_rank_iff x).mpr hx)
  exact le_iff_rank.mpr ⟨p, p, hp, hp, le_rfl⟩

theorem beq_self_of_le {x y : Float} (h : x ≤ y) : (x == x) = true ∧ (y == y) = true := by
  obtain ⟨p, q, hx, hy, -⟩ := le_iff_rank.mp h
  exact ⟨(isSome_rank_iff x).mp (by rw [hx]; rfl), (isSome_rank_iff y).mp (by rw [hy]; rfl)⟩

-- ---------------------------------------------------------------------------
-- Picking
-- ---------------------------------------------------------------------------

/-- One of two doubles is picked, and what is picked comes before both, if they are numbers. -/
structure Picks (pick : Float → Float → Float) (before : Float → Float → Prop) : Prop where
  eq (x y : Float) : pick x y = x ∨ pick x y = y
  left (x y : Float) : (x == x) = true → before (pick x y) x
  right (x y : Float) : (y == y) = true → before (pick x y) y
  number {x y : Float} : before x y → (x == x) = true
  self {x : Float} : (x == x) = true → before x x
  trans {x y z : Float} : before x y → before y z → before x z

theorem picks_least : Picks Scalar.least (· ≤ ·) where
  eq x y := by
    unfold Scalar.least
    split_ifs <;> simp
  left x y hx := by
    unfold Scalar.least
    split_ifs with hlt
    · exact le_of_lt hlt
    · exact le_self hx
  right x y hy := by
    unfold Scalar.least
    split_ifs with hlt hx
    · exact le_self hy
    · exact le_of_not_lt hx hy hlt
    · exact le_self hy
  number h := (beq_self_of_le h).1
  self := le_self
  trans := le_trans

theorem picks_greatest : Picks Scalar.greatest (fun x y => y ≤ x) where
  eq x y := by
    unfold Scalar.greatest
    split_ifs <;> simp
  left x y hx := by
    unfold Scalar.greatest
    split_ifs with hlt
    · exact le_of_lt hlt
    · exact le_self hx
  right x y hy := by
    unfold Scalar.greatest
    split_ifs with hlt hx
    · exact le_self hy
    · exact le_of_not_lt hy hx hlt
    · exact le_self hy
  number h := (beq_self_of_le h).2
  self := le_self
  trans hxy hyz := le_trans hyz hxy

theorem Picks.foldl {pick : Float → Float → Float} {before : Float → Float → Prop}
    (h : Picks pick before) (x : Float) (xs : List Float) :
    xs.foldl pick x ∈ x :: xs ∧
      ∀ y ∈ x :: xs, (y == y) = true → before (xs.foldl pick x) y := by
  induction xs generalizing x with
  | nil => exact ⟨List.mem_cons_self, List.forall_mem_singleton.mpr h.self⟩
  | cons z xs ih =>
    obtain ⟨hmem, hbefore⟩ := ih (pick x z)
    obtain ⟨hpicked, hrest⟩ := List.forall_mem_cons.mp hbefore
    refine ⟨?_, List.forall_mem_cons.mpr ⟨fun hx => ?_, List.forall_mem_cons.mpr
      ⟨fun hz => ?_, hrest⟩⟩⟩
    · rcases List.mem_cons.mp hmem with heq | hmem
      · rw [List.foldl_cons, heq]
        rcases h.eq x z with heq | heq <;> simp [heq]
      · exact List.mem_cons_of_mem _ (List.mem_cons_of_mem _ hmem)
    · have hleft := h.left x z hx
      exact h.trans (hpicked (h.number hleft)) hleft
    · have hright := h.right x z hz
      exact h.trans (hpicked (h.number hright)) hright

end Letterform.Double
