import Letterform.Charstring.Arithmetic
import Letterform.Proofs.Except

/-!
# Operands within the limit

No operation changes the limit of the operand stack, and none leaves more operands than that on it.
-/

namespace Letterform.Charstring

variable {α : Type} {a : α} {s s' s'' : Stack α}

namespace Stack

/-- The second stack has the limit of the first one and lies within it if the first one does. -/
structure KeepsLimit (s s' : Stack α) : Prop where
  limit : s'.limit = s.limit
  size_le : s.size ≤ s.limit → s'.size ≤ s.limit

theorem KeepsLimit.refl (s : Stack α) : s.KeepsLimit s := ⟨rfl, id⟩

theorem KeepsLimit.trans (h : s.KeepsLimit s') (h' : s'.KeepsLimit s'') : s.KeepsLimit s'' := by
  refine ⟨h'.limit.trans h.limit, fun hsize => ?_⟩
  rw [← h.limit]
  exact h'.size_le (by rw [h.limit]; exact h.size_le hsize)

theorem keepsLimit_of_length_le {values : List α} (h : values.length ≤ s.size) :
    s.KeepsLimit { s with values } :=
  ⟨rfl, h.trans⟩

theorem keepsLimit_clear (s : Stack α) : s.KeepsLimit s.clear :=
  keepsLimit_of_length_le (Nat.zero_le _)

theorem keepsLimit_push (h : s.push a = .ok s') : s.KeepsLimit s' := by
  unfold push at h
  split_ifs at h with hroom
  cases h
  exact ⟨rfl, fun _ => hroom⟩

theorem keepsLimit_pop (h : s.pop = .ok (a, s')) : s.KeepsLimit s' := by
  unfold pop at h
  split at h
  next b rest hvalues =>
    cases h
    refine keepsLimit_of_length_le ?_
    simp [size, hvalues]
  next => cases h

theorem size_popMany {count : ℤ} {operands : List α}
    (h : s.popMany count = .ok (operands, s')) :
    s'.limit = s.limit ∧ operands.length + s'.size = s.size := by
  unfold popMany at h
  split_ifs at h with hcount
  cases h
  refine ⟨rfl, ?_⟩
  simp only [size, List.length_reverse, ← List.length_append, List.take_append_drop]

theorem keepsLimit_copy {depth : ℤ} (h : s.copy depth = .ok s') : s.KeepsLimit s' := by
  unfold copy at h
  split at h
  next => exact keepsLimit_push h
  next => cases h

theorem rotateLeft_eq_rotate (values : List α) (n : ℕ) : values.rotateLeft n = values.rotate n := by
  match values with
  | [] => rw [List.rotate_nil]; rfl
  | [a] => rw [List.rotate_singleton]; rfl
  | a :: b :: values => rw [List.rotate_eq_drop_append_take_mod]; rfl

theorem keepsLimit_roll {count shift : ℤ} (h : s.roll count shift = .ok s') :
    s.KeepsLimit s' := by
  unfold roll at h
  split_ifs at h with hcount
  cases h
  refine keepsLimit_of_length_le (le_of_eq ?_)
  rw [List.length_append, rotateLeft_eq_rotate, List.length_rotate, ← List.length_append,
    List.take_append_drop, size]

theorem keepsLimit_replaceTop {f : α → α} (h : s.replaceTop f = .ok s') : s.KeepsLimit s' := by
  unfold replaceTop at h
  simp only [bind_ok] at h
  obtain ⟨⟨a, s₁⟩, hpop, hpush⟩ := h
  exact (keepsLimit_pop hpop).trans (keepsLimit_push hpush)

theorem keepsLimit_combineTop {f : α → α → α} (h : s.combineTop f = .ok s') :
    s.KeepsLimit s' := by
  unfold combineTop at h
  simp only [bind_ok] at h
  obtain ⟨⟨b, s₁⟩, hb, ⟨a, s₂⟩, ha, hpush⟩ := h
  exact ((keepsLimit_pop hb).trans (keepsLimit_pop ha)).trans (keepsLimit_push hpush)

variable [Scalar α]

theorem keepsLimit_popInt {n : ℤ} (h : s.popInt = .ok (n, s')) : s.KeepsLimit s' := by
  unfold popInt at h
  simp only [bind_ok, pure_ok] at h
  obtain ⟨⟨a, s₁⟩, hpop, h⟩ := h
  cases h
  exact keepsLimit_pop hpop

/-- Blending leaves no more operands than it takes, since the values are among them. -/
theorem keepsLimit_blend {scalars : List α} (h : s.blend scalars = .ok s') : s.KeepsLimit s' := by
  unfold blend at h
  simp only [bind_ok, pure_ok] at h
  obtain ⟨⟨count, s₁⟩, hcount, ⟨operands, s₂⟩, hoperands, rfl⟩ := h
  obtain ⟨hlimit, hsize⟩ := size_popMany hoperands
  refine (keepsLimit_popInt hcount).trans ⟨hlimit, fun hfits => ?_⟩
  have hvalues : (operands.take count.toNat).length ≤ operands.length := List.length_take_le' _ _
  simp only [size, List.length_append, List.length_reverse, List.length_map, List.length_zipIdx]
    at hsize hfits ⊢
  omega

end Stack

-- ---------------------------------------------------------------------------
-- Arithmetic
-- ---------------------------------------------------------------------------

namespace Calculator

variable {c c' : Calculator α}

theorem keepsLimit_withStack {result : Except Error (Stack α)}
    (hresult : ∀ s', result = .ok s' → s.KeepsLimit s')
    (h : c.withStack result = .ok c') : s.KeepsLimit c'.stack := by
  unfold withStack at h
  cases result with
  | error e => cases h
  | ok stack =>
    cases h
    exact hresult stack rfl

theorem stack_store {index : ℤ} (h : c.store index a = .ok c') : c'.stack = c.stack := by
  unfold store at h
  split_ifs at h
  cases h
  rfl

variable [Scalar α]

theorem keepsLimit_evaluate {op : Arithmetic} (h : c.evaluate op = .ok c') :
    c.stack.KeepsLimit c'.stack := by
  cases op with
  | and | or | add | sub | div | eq | mul =>
    exact keepsLimit_withStack (fun _ => Stack.keepsLimit_combineTop) h
  | not | abs | neg | sqrt => exact keepsLimit_withStack (fun _ => Stack.keepsLimit_replaceTop) h
  | random => exact keepsLimit_withStack (fun _ => Stack.keepsLimit_push) h
  | drop =>
    simp only [evaluate, bind_ok, pure_ok] at h
    obtain ⟨⟨a, s⟩, hpop, rfl⟩ := h
    exact Stack.keepsLimit_pop hpop
  | put =>
    simp only [evaluate, bind_ok] at h
    obtain ⟨⟨index, s⟩, hindex, ⟨a, s'⟩, hpop, hstore⟩ := h
    rw [stack_store hstore]
    exact (Stack.keepsLimit_popInt hindex).trans (Stack.keepsLimit_pop hpop)
  | get =>
    simp only [evaluate, bind_ok] at h
    obtain ⟨⟨index, s⟩, hindex, a, -, h⟩ := h
    exact (Stack.keepsLimit_popInt hindex).trans
      (keepsLimit_withStack (fun _ => Stack.keepsLimit_push) h)
  | ifelse =>
    simp only [evaluate, bind_ok] at h
    obtain ⟨⟨v2, s⟩, h1, ⟨v1, s'⟩, h2, ⟨b, s''⟩, h3, ⟨a, s'''⟩, h4, h⟩ := h
    refine (((Stack.keepsLimit_pop h1).trans (Stack.keepsLimit_pop h2)).trans
      (Stack.keepsLimit_pop h3)).trans ((Stack.keepsLimit_pop h4).trans ?_)
    exact keepsLimit_withStack (fun _ => Stack.keepsLimit_push) h
  | dup =>
    simp only [evaluate, bind_ok] at h
    obtain ⟨⟨a, s⟩, hpop, h⟩ := h
    refine (Stack.keepsLimit_pop hpop).trans (keepsLimit_withStack (fun s' hs' => ?_) h)
    obtain ⟨s'', hfirst, hsecond⟩ := bind_ok.mp hs'
    exact (Stack.keepsLimit_push hfirst).trans (Stack.keepsLimit_push hsecond)
  | exch =>
    simp only [evaluate, bind_ok] at h
    obtain ⟨⟨b, s⟩, hb, ⟨a, s'⟩, ha, h⟩ := h
    refine ((Stack.keepsLimit_pop hb).trans (Stack.keepsLimit_pop ha)).trans
      (keepsLimit_withStack (fun s' hs' => ?_) h)
    obtain ⟨s'', hfirst, hsecond⟩ := bind_ok.mp hs'
    exact (Stack.keepsLimit_push hfirst).trans (Stack.keepsLimit_push hsecond)
  | index =>
    simp only [evaluate, bind_ok] at h
    obtain ⟨⟨depth, s⟩, hdepth, h⟩ := h
    exact (Stack.keepsLimit_popInt hdepth).trans
      (keepsLimit_withStack (fun _ => Stack.keepsLimit_copy) h)
  | roll =>
    simp only [evaluate, bind_ok] at h
    obtain ⟨⟨shift, s⟩, hshift, ⟨count, s'⟩, hcount, h⟩ := h
    exact ((Stack.keepsLimit_popInt hshift).trans (Stack.keepsLimit_popInt hcount)).trans
      (keepsLimit_withStack (fun _ => Stack.keepsLimit_roll) h)

end Calculator

end Letterform.Charstring
