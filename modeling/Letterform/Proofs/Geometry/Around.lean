import Letterform.Geometry.Basic
import Letterform.Proofs.Number.Lawful

/-!
# Boxes around points with whole coordinates

Where all coordinates are whole a box around points can be told in integers. Such a box moves with
its points, and a box around several groups of points is the smallest one around their boxes.
-/

namespace Letterform

open LawfulScalar (Denotes)

namespace Rect

def union (r s : Rect ℤ) : Rect ℤ :=
  ⟨min r.x0 s.x0, min r.y0 s.y0, max r.x1 s.x1, max r.y1 s.y1⟩

/-- The smallest box around some boxes; there is none if there are no boxes. -/
def union? : List (Rect ℤ) → Option (Rect ℤ)
  | [] => none
  | r :: rest => some (rest.foldl union r)

def shift (r : Rect ℤ) (dx dy : ℤ) : Rect ℤ := ⟨r.x0 + dx, r.y0 + dy, r.x1 + dx, r.y1 + dy⟩

end Rect

variable {α : Type} [Scalar α] [LawfulScalar α]

/-- A map that adds whole numbers to both coordinates and does nothing else. -/
structure Affine.IsShift (t : Affine α) (dx dy : ℤ) : Prop where
  xx : Denotes t.xx 1
  yx : Denotes t.yx 0
  xy : Denotes t.xy 0
  yy : Denotes t.yy 1
  dx : Denotes t.dx dx
  dy : Denotes t.dy dy

-- ---------------------------------------------------------------------------
-- Along one axis
-- ---------------------------------------------------------------------------

namespace Scalar

/-- Numbers that are whole, with the least and the greatest of them. -/
structure Spans (xs : List α) (low high : ℤ) : Prop where
  within : ∀ x ∈ xs, ∃ n : ℤ, Denotes x n ∧ low ≤ n ∧ n ≤ high
  low : ∃ x ∈ xs, Denotes x low
  high : ∃ x ∈ xs, Denotes x high

namespace Spans

variable {xs ys : List α} {low high low' high' : ℤ}

theorem append (h : Spans xs low high) (h' : Spans ys low' high') :
    Spans (xs ++ ys) (min low low') (max high high') := by
  obtain ⟨x, hx, hxlow⟩ := h.low
  obtain ⟨y, hy, hylow⟩ := h'.low
  obtain ⟨x', hx', hxhigh⟩ := h.high
  obtain ⟨y', hy', hyhigh⟩ := h'.high
  refine ⟨fun z hz => ?_, ?_, ?_⟩
  · rcases List.mem_append.mp hz with hz | hz
    · obtain ⟨n, hn, hle, hle'⟩ := h.within z hz
      exact ⟨n, hn, min_le_of_left_le hle, le_max_of_le_left hle'⟩
    · obtain ⟨n, hn, hle, hle'⟩ := h'.within z hz
      exact ⟨n, hn, min_le_of_right_le hle, le_max_of_le_right hle'⟩
  · rcases min_choice low low' with hmin | hmin <;> rw [hmin]
    · exact ⟨x, List.mem_append_left _ hx, hxlow⟩
    · exact ⟨y, List.mem_append_right _ hy, hylow⟩
  · rcases max_choice high high' with hmax | hmax <;> rw [hmax]
    · exact ⟨x', List.mem_append_left _ hx', hxhigh⟩
    · exact ⟨y', List.mem_append_right _ hy', hyhigh⟩

theorem shift {β : Type} {points : List β} {f g : β → α} {d : ℤ}
    (h : Spans (points.map f) low high)
    (hshift : ∀ p ∈ points, ∀ n : ℤ, Denotes (f p) n → low ≤ n → n ≤ high →
      Denotes (g p) (n + d : ℤ)) : Spans (points.map g) (low + d) (high + d) := by
  have hle : low ≤ high := by
    obtain ⟨x, hx, hlow⟩ := h.low
    obtain ⟨n, hn, hle, hle'⟩ := h.within x hx
    exact hle.trans hle'
  refine ⟨List.forall_mem_map.mpr fun p hp => ?_, ?_, ?_⟩
  · obtain ⟨n, hn, hle, hle'⟩ := h.within (f p) (List.mem_map_of_mem hp)
    exact ⟨n + d, hshift p hp n hn hle hle', by omega, by omega⟩
  · obtain ⟨x, hx, hlow⟩ := h.low
    obtain ⟨p, hp, rfl⟩ := List.mem_map.mp hx
    exact ⟨g p, List.mem_map_of_mem hp, hshift p hp low hlow le_rfl hle⟩
  · obtain ⟨x, hx, hhigh⟩ := h.high
    obtain ⟨p, hp, rfl⟩ := List.mem_map.mp hx
    exact ⟨g p, List.mem_map_of_mem hp, hshift p hp high hhigh hle le_rfl⟩

theorem exists_ints (h : Spans xs low high) :
    ∃ ns : List ℤ, List.Forall₂ (fun x (n : ℤ) => Denotes x n) xs ns ∧
      ns.min? = some low ∧ ns.max? = some high := by
  choose! value hvalue using h.within
  have hmem {x : α} {n : ℤ} (hx : x ∈ xs) (hn : Denotes x n) : n ∈ xs.map value := by
    have hn' := LawfulScalar.unique hn (hvalue x hx).1
    rw [Int.cast_inj] at hn'
    exact hn' ▸ List.mem_map_of_mem hx
  refine ⟨xs.map value, ?_, ?_, ?_⟩
  · rw [List.forall₂_map_right_iff, List.forall₂_same]
    exact fun x hx => (hvalue x hx).1
  · obtain ⟨x, hx, hlow⟩ := h.low
    exact List.min?_eq_some_iff.mpr ⟨hmem hx hlow,
      List.forall_mem_map.mpr fun y hy => (hvalue y hy).2.1⟩
  · obtain ⟨x, hx, hhigh⟩ := h.high
    exact List.max?_eq_some_iff.mpr ⟨hmem hx hhigh,
      List.forall_mem_map.mpr fun y hy => (hvalue y hy).2.2⟩

end Spans

theorem denotes_least {a b : α} {m n : ℤ} (ha : Denotes a m) (hb : Denotes b n) :
    Denotes (least a b) (min m n : ℤ) := by
  have hlt := LawfulScalar.lt_iff hb ha
  have hself : (a == a) = true := (LawfulScalar.beq_iff ha ha).mpr rfl
  rw [Int.cast_lt] at hlt
  rw [least, if_congr hlt rfl rfl, if_pos hself]
  split_ifs with h
  · rwa [min_eq_right h.le]
  · rwa [min_eq_left (not_lt.mp h)]

theorem denotes_greatest {a b : α} {m n : ℤ} (ha : Denotes a m) (hb : Denotes b n) :
    Denotes (greatest a b) (max m n : ℤ) := by
  have hlt := LawfulScalar.lt_iff ha hb
  have hself : (a == a) = true := (LawfulScalar.beq_iff ha ha).mpr rfl
  rw [Int.cast_lt] at hlt
  rw [greatest, if_congr hlt rfl rfl, if_pos hself]
  split_ifs with h
  · rwa [max_eq_right h.le]
  · rwa [max_eq_left (not_lt.mp h)]

theorem denotes_foldl {pick : α → α → α} {pick' : ℤ → ℤ → ℤ}
    (hpick : ∀ {a b : α} {m n : ℤ}, Denotes a m → Denotes b n → Denotes (pick a b) (pick' m n))
    {xs : List α} {ns : List ℤ} (h : List.Forall₂ (fun x (n : ℤ) => Denotes x n) xs ns) {x : α}
    {n : ℤ} (hx : Denotes x n) : Denotes (xs.foldl pick x) (ns.foldl pick' n : ℤ) := by
  induction h generalizing x n with
  | nil => exact hx
  | cons hy _ ih => exact ih (hpick hx hy)

theorem Spans.fold {x : α} {xs : List α} {low high : ℤ} (h : Spans (x :: xs) low high) :
    Denotes (xs.foldl least x) low ∧ Denotes (xs.foldl greatest x) high := by
  obtain ⟨_, hall, hmin, hmax⟩ := h.exists_ints
  obtain ⟨n, ns, hx, hxs, rfl⟩ := List.forall₂_cons_left_iff.mp hall
  rw [List.min?_cons', Option.some.injEq] at hmin
  rw [List.max?_cons', Option.some.injEq] at hmax
  exact ⟨hmin ▸ denotes_foldl denotes_least hxs hx, hmax ▸ denotes_foldl denotes_greatest hxs hx⟩

end Scalar

-- ---------------------------------------------------------------------------
-- Boxes
-- ---------------------------------------------------------------------------

namespace Rect

open Scalar (Spans)

/-- The smallest box around points with whole coordinates. -/
structure IsAround (r : Rect ℤ) (points : List (Point α)) : Prop where
  x : Spans (points.map (·.x)) r.x0 r.x1
  y : Spans (points.map (·.y)) r.y0 r.y1

variable {r s : Rect ℤ} {points points' : List (Point α)}

theorem IsAround.append (h : r.IsAround points) (h' : s.IsAround points') :
    (r.union s).IsAround (points ++ points') := by
  constructor
  · rw [List.map_append]
    exact h.x.append h'.x
  · rw [List.map_append]
    exact h.y.append h'.y

theorem IsAround.foldl_union {boxes : List (Rect ℤ)} {groups : List (List (Point α))}
    (h : List.Forall₂ IsAround boxes groups) (hr : r.IsAround points) :
    (boxes.foldl union r).IsAround (points ++ groups.flatten) := by
  induction h generalizing r points with
  | nil =>
    rw [List.flatten_nil, List.append_nil]
    exact hr
  | cons hs _ ih =>
    rw [List.flatten_cons, ← List.append_assoc]
    exact ih (hr.append hs)

theorem isAround_union? {boxes : List (Rect ℤ)} {groups : List (List (Point α))}
    (h : List.Forall₂ IsAround boxes groups) (hne : boxes ≠ []) :
    ∃ r, union? boxes = some r ∧ r.IsAround groups.flatten := by
  cases h with
  | nil => exact absurd rfl hne
  | cons hr hrest =>
    rw [List.flatten_cons]
    exact ⟨_, rfl, hr.foldl_union hrest⟩

omit [LawfulScalar α] in
theorem foldl_cover (r : Rect α) (points : List (Point α)) :
    points.foldl cover r =
      ⟨(points.map (·.x)).foldl Scalar.least r.x0, (points.map (·.y)).foldl Scalar.least r.y0,
        (points.map (·.x)).foldl Scalar.greatest r.x1,
        (points.map (·.y)).foldl Scalar.greatest r.y1⟩ := by
  induction points generalizing r with
  | nil => rfl
  | cons p points ih =>
    rw [List.foldl_cons, ih]
    rfl

theorem denotes_apply {p q a b d : α} {i j m n k : ℤ} (hp : Denotes p i) (hq : Denotes q j)
    (ha : Denotes a m) (hb : Denotes b n) (hd : Denotes d k) (hi : |i * m| < 2 ^ 51)
    (hj : |j * n| < 2 ^ 51) (hk : |k| < 2 ^ 51) :
    Denotes (p * a + q * b + d) (i * m + j * n + k : ℤ) := by
  rw [abs_lt] at hi hj hk
  have hstored {n : ℤ} (h : -2 ^ 53 < n ∧ n < 2 ^ 53) : Scalar.Storable n :=
    Scalar.storable_intCast (abs_lt.mpr h)
  push_cast
  refine LawfulScalar.add (LawfulScalar.add (LawfulScalar.mul hp ha ?_)
    (LawfulScalar.mul hq hb ?_) ?_) hd ?_
  · exact_mod_cast hstored (n := i * m) ⟨by omega, by omega⟩
  · exact_mod_cast hstored (n := j * n) ⟨by omega, by omega⟩
  · exact_mod_cast hstored (n := i * m + j * n) ⟨by omega, by omega⟩
  · exact_mod_cast hstored (n := i * m + j * n + k) ⟨by omega, by omega⟩

theorem IsAround.shift (h : r.IsAround points) {t : Affine α} {dx dy : ℤ} (ht : t.IsShift dx dy)
    (hsmall : ∀ n ∈ [r.x0, r.y0, r.x1, r.y1, dx, dy], |n| < 2 ^ 51) :
    (r.shift dx dy).IsAround (points.map t.apply) := by
  simp only [List.forall_mem_cons, abs_lt] at hsmall
  obtain ⟨hx0, hy0, hx1, hy1, hdx, hdy, -⟩ := hsmall
  have hwhole {f : Point α → α} {low high : ℤ} (h : Spans (points.map f) low high) :
      ∀ p ∈ points, ∃ n : ℤ, Denotes (f p) n := fun p hp => by
    obtain ⟨n, hn, -⟩ := h.within _ (List.mem_map_of_mem hp)
    exact ⟨n, hn⟩
  have hone : ((1 : ℤ) : ℚ) = 1 := Int.cast_one
  have hzero : ((0 : ℤ) : ℚ) = 0 := Int.cast_zero
  constructor
  · rw [List.map_map]
    refine h.x.shift fun p hp n hn hlow hhigh => ?_
    obtain ⟨m, hm⟩ := hwhole h.y p hp
    have := denotes_apply (hone ▸ ht.xx) (hzero ▸ ht.xy) hn hm ht.dx
      (by rw [abs_lt]; omega) (by simp) (abs_lt.mpr hdx)
    rwa [one_mul, zero_mul, add_zero] at this
  · rw [List.map_map]
    refine h.y.shift fun p hp n hn hlow hhigh => ?_
    obtain ⟨m, hm⟩ := hwhole h.x p hp
    have := denotes_apply (hzero ▸ ht.yx) (hone ▸ ht.yy) hm hn ht.dy
      (by simp) (by rw [abs_lt]; omega) (abs_lt.mpr hdy)
    rwa [one_mul, zero_mul, zero_add] at this

theorem IsAround.around (h : r.IsAround points) :
    Denotes (around points).x0 r.x0 ∧ Denotes (around points).y0 r.y0 ∧
      Denotes (around points).x1 r.x1 ∧ Denotes (around points).y1 r.y1 := by
  cases points with
  | nil =>
    obtain ⟨_, hmem, -⟩ := h.x.low
    cases hmem
  | cons p points =>
    rw [Rect.around, foldl_cover]
    exact ⟨h.x.fold.1, h.y.fold.1, h.x.fold.2, h.y.fold.2⟩

end Rect

end Letterform
