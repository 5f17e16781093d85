import Letterform.Proofs.Component.Flattening
import Letterform.Record.Encoding

/-!
# How deep components are nested

The depth that a composite record counts for is the level of the deepest glyph in its tree of
components. It is refused if a glyph stands below the nesting limit, which is one level earlier than
flattening refuses: flattening counts the levels below a component of the glyph, the depth those
below the glyph itself.
-/

namespace Letterform

variable {α : Type}

theorem isGreatest_insert_max {m n k : ℕ} {s : Set ℕ} (h : IsGreatest (insert (max m n) s) k) :
    IsGreatest (insert m (insert n s)) k := by
  obtain ⟨hmem, hle⟩ := h
  have hmax : max m n ≤ k := hle (Set.mem_insert _ _)
  constructor
  · rcases hmem with rfl | hmem
    · rcases max_choice m n with h | h
      · exact .inl h
      · exact .inr (.inl h)
    · exact .inr (.inr hmem)
  · rintro i (rfl | rfl | hi)
    · exact (le_max_left _ _).trans hmax
    · exact (le_max_right _ _).trans hmax
    · exact hle (.inr hi)

theorem isGreatest_foldl_max (m : ℕ) (ns : List ℕ) :
    IsGreatest (insert m {n | n ∈ ns}) (ns.foldl max m) := by
  induction ns generalizing m with
  | nil => simp
  | cons n ns ih =>
    have hcons : {k | k ∈ n :: ns} = insert n {k | k ∈ ns} := by
      ext k
      simp
    rw [hcons, List.foldl_cons]
    exact isGreatest_insert_max (ih (max m n))

namespace GlyphSource

variable {source : GlyphSource α} {g h : Glyph α} {level : ℕ}

theorem InTree.eq_zero (hnil : g.components = []) (hin : source.InTree g level h) : level = 0 := by
  cases level with
  | zero => rfl
  | succ level =>
    obtain ⟨c, hc, -⟩ := hin.exists_component
    simp [hnil] at hc

/-- The level of the deepest glyph in the tree below `g`. -/
def HasDepth (source : GlyphSource α) (g : Glyph α) (depth : ℕ) : Prop :=
  IsGreatest {level | ∃ h, source.InTree g level h} depth

theorem hasDepth_of_nil (hnil : g.components = []) : source.HasDepth g 0 :=
  ⟨⟨g, .root⟩, fun _ ⟨_, hin⟩ => (hin.eq_zero hnil).le⟩

theorem hasDepth_of_components {depths : List ℕ} (hne : g.components ≠ [])
    (h : List.Forall₂ (fun c depth => ∃ id child, c.target = .glyph id ∧
      source id = some child ∧ source.HasDepth child depth) g.components depths) :
    source.HasDepth g (depths.foldl max 0 + 1) := by
  obtain ⟨hmem, hle⟩ := isGreatest_foldl_max 0 depths
  constructor
  · -- The start of the maximum is only met if every component leads to a glyph without components.
    obtain ⟨depth, hdepth, heq⟩ : ∃ depth ∈ depths, depths.foldl max 0 = depth := by
      rcases hmem with hzero | hmem
      · have hdepths : depths ≠ [] := fun hnil => hne (by simpa [hnil] using h)
        obtain ⟨depth, hdepth⟩ := List.exists_mem_of_ne_nil _ hdepths
        have hdepth' : depth ≤ depths.foldl max 0 := hle (.inr hdepth)
        exact ⟨depth, hdepth, by omega⟩
      · exact ⟨_, hmem, rfl⟩
    obtain ⟨c, hc, id, child, htarget, hsource, ⟨h, hin⟩, -⟩ := exists_of_forall₂ h hdepth
    rw [heq]
    exact ⟨h, hin.of_component hc htarget hsource⟩
  · rintro level ⟨p, hin⟩
    cases level with
    | zero => exact Nat.zero_le _
    | succ level =>
      obtain ⟨c, hc, id, child, htarget, hsource, hin⟩ := hin.exists_component
      obtain ⟨depth, hdepth, id', child', htarget', hsource', -, hgreatest⟩ :=
        exists_of_forall₂ h.flip hc
      cases htarget.symm.trans htarget'
      cases hsource.symm.trans hsource'
      exact Nat.succ_le_succ ((hgreatest ⟨p, hin⟩).trans (hle (.inr hdepth)))

end GlyphSource

namespace Record

variable {source : GlyphSource α} {root id : GlyphId} {levels d : ℕ} {g : Glyph α}
  {c : Component α} {e : EncodeError α}

theorem writtenId_ok : c.writtenId = .ok id ↔ c.target = .glyph id := by
  unfold Component.writtenId
  split <;> simp_all

-- ---------------------------------------------------------------------------
-- The depth that is counted
-- ---------------------------------------------------------------------------

theorem component_depth_ok :
    (do
      let id ← c.writtenId
      match source id with
      | none => throw (.reference (.glyphNotFound id))
      | some child => depth source levels child : Except (EncodeError α) ℕ) = .ok d ↔
      ∃ id child, c.target = .glyph id ∧ source id = some child ∧
        depth source levels child = .ok d := by
  simp only [bind_ok, writtenId_ok]
  refine exists_congr fun id => ?_
  cases source id <;> simp [throw, throwThe, MonadExceptOf.throw]

theorem depth_succ (hne : g.components ≠ []) :
    depth source (levels + 1) g = (do
      let depths ← g.components.mapM fun c => do
        let id ← c.writtenId
        match source id with
        | none => throw (.reference (.glyphNotFound id))
        | some child => depth source levels child
      return depths.foldl max 0 + 1) := by
  rw [depth]
  exact if_neg (by simpa using hne)

theorem depth_of_nil (hnil : g.components = []) : depth source levels g = .ok 0 := by
  cases levels with
  | zero => rw [depth, hnil]
  | succ levels =>
    rw [depth, hnil]
    rfl

theorem hasDepth_of_depth (h : depth source levels g = .ok d) :
    d ≤ levels ∧ source.HasDepth g d := by
  induction levels generalizing g d with
  | zero =>
    rw [depth] at h
    cases hg : g.components with
    | nil =>
      rw [hg] at h
      cases h
      exact ⟨le_rfl, GlyphSource.hasDepth_of_nil hg⟩
    | cons c rest => simp [hg, bind_ok, throw, throwThe, MonadExceptOf.throw] at h
  | succ levels ih =>
    by_cases hg : g.components = []
    · rw [depth_of_nil hg] at h
      cases h
      exact ⟨Nat.zero_le _, GlyphSource.hasDepth_of_nil hg⟩
    · rw [depth_succ hg, bind_pure_ok] at h
      obtain ⟨depths, hdepths, rfl⟩ := h
      have hchildren := (mapM_ok hdepths).imp fun _ _ => component_depth_ok.mp
      constructor
      · have hle : ∀ d ∈ depths, d ≤ levels := by
          intro d hd
          obtain ⟨_, _, _, _, _, _, h⟩ := exists_of_forall₂ hchildren hd
          exact (ih h).1
        rcases (isGreatest_foldl_max 0 depths).1 with hzero | hmem
        · rw [hzero]
          exact Nat.succ_le_succ (Nat.zero_le _)
        · exact Nat.succ_le_succ (hle _ hmem)
      · refine GlyphSource.hasDepth_of_components hg (hchildren.imp ?_)
        rintro c d ⟨id, child, htarget, hsource, h⟩
        exact ⟨id, child, htarget, hsource, (ih h).2⟩

-- ---------------------------------------------------------------------------
-- The depth that is refused
-- ---------------------------------------------------------------------------

/-- If all references lead somewhere, a depth is only refused for a glyph below the limit. -/
theorem inTree_of_depth_error
    (hrefers : ∀ level h, source.InTree g level h → ∀ c ∈ h.components,
      ∃ child, source.Finds root c child)
    (h : depth source levels g = .error e) :
    (∃ id, e = .reference (.recursionLimitExceeded id)) ∧
      ∃ h, source.InTree g (levels + 1) h := by
  induction levels generalizing g with
  | zero =>
    rw [depth] at h
    cases hg : g.components with
    | nil => simp [hg] at h
    | cons c rest =>
      have hc : c ∈ g.components := by simp [hg]
      obtain ⟨child, id, htarget, -, hsource⟩ := hrefers 0 g .root c hc
      rw [hg] at h
      simp only [writtenId_ok.mpr htarget] at h
      cases h
      exact ⟨⟨id, rfl⟩, child, .component .root hc htarget hsource⟩
  | succ levels ih =>
    have hg : g.components ≠ [] := fun hnil => by simp [depth_of_nil hnil] at h
    rw [depth_succ hg, bind_pure_error] at h
    obtain ⟨c, hc, h⟩ := mapM_error h
    obtain ⟨child, id, htarget, -, hsource⟩ := hrefers 0 g .root c hc
    simp only [writtenId_ok.mpr htarget, bind_error, reduceCtorEq, false_or, Except.ok.injEq,
      exists_eq_left', hsource] at h
    obtain ⟨hlimit, p, hin⟩ := ih
      (fun level p hin => hrefers (level + 1) p (hin.of_component hc htarget hsource)) h
    exact ⟨hlimit, p, hin.of_component hc htarget hsource⟩

/-- Where a glyph can be flattened, its depth is refused if a glyph stands below the limit. -/
theorem depth_error_iff (hunrolls : source.Unrolls root d g) :
    (∃ id, depth source levels g = .error (.reference (.recursionLimitExceeded id))) ↔
      ∃ h, source.InTree g (levels + 1) h := by
  have hrefers (level : ℕ) (h : Glyph α) (hin : source.InTree g level h) :
      ∀ c ∈ h.components, ∃ child, source.Finds root c child := hunrolls.refers hin
  constructor
  · rintro ⟨id, h⟩
    exact (inTree_of_depth_error hrefers h).2
  · rintro ⟨h, hin⟩
    cases hdepth : depth source levels g with
    | ok d =>
      obtain ⟨hle, -, hgreatest⟩ := hasDepth_of_depth hdepth
      have hdeep : levels + 1 ≤ d := hgreatest ⟨h, hin⟩
      omega
    | error e =>
      obtain ⟨⟨id, rfl⟩, -⟩ := inTree_of_depth_error hrefers hdepth
      exact ⟨id, rfl⟩

end Record

end Letterform
