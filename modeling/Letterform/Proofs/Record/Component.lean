import Letterform.Proofs.Except
import Letterform.Proofs.Number.Single
import Letterform.Proofs.Outline.Component
import Letterform.Proofs.Record.Flags
import Letterform.Proofs.Record.Layout

/-!
# Components come back from their bytes

The entries of a transform that are not written are those of the identity, or equal to others. The
arguments are written as narrow as they can be, and the flags tell how. So a component is read as
it was written, whatever comes after it.
-/

namespace Letterform

open LawfulScalar (Denotes)
open Record (IsWord)

namespace LayoutFlags

theorem argumentLength_inter (f : LayoutFlags) :
    (f &&& argumentGroup).argumentLength = f.argumentLength := by
  rw [argumentLength, argumentLength, FlagSet.contains_inter rfl]

theorem entryLength_inter (f : LayoutFlags) : (f &&& entryGroup).entryLength = f.entryLength := by
  rw [entryLength, entryLength, FlagSet.contains_inter rfl, FlagSet.contains_inter rfl,
    FlagSet.contains_inter rfl]

end LayoutFlags

variable {α : Type} [Scalar α] [LawfulScalar α]

-- ---------------------------------------------------------------------------
-- Entries
-- ---------------------------------------------------------------------------

/-- The entries of a transform are these 2.14 words. -/
structure Affine.HasEntries (t : Affine α) (xx yx xy yy : ℤ) : Prop where
  xx : Scalar.IsTwoDotFourteen t.xx xx
  yx : Scalar.IsTwoDotFourteen t.yx yx
  xy : Scalar.IsTwoDotFourteen t.xy xy
  yy : Scalar.IsTwoDotFourteen t.yy yy

theorem Scalar.denotes_zero : Denotes (0 : α) 0 := by
  have := LawfulScalar.ofInt (α := α) (n := 0) (by norm_num)
  rwa [Int.cast_zero] at this

namespace Component

theorem entryWord_ok [LawfulNarrow α] {a : α} {n word : ℤ} (h : entryWord a = .ok word)
    (ha : Scalar.IsTwoDotFourteen a n) (hn : IsWord n) : word = n := by
  unfold entryWord at h
  split_ifs at h
  cases h
  exact ha.toTwoDotFourteen hn.1 hn.2

theorem exists_encode_two {n : ℤ} (h : IsWord n) :
    ∃ b1 b2, BigEndian.encode 2 n = [b1, b2] ∧ Scalar.IsTwoDotFourteen (entry [b1, b2] : α) n := by
  obtain ⟨b1, b2, hbytes⟩ := List.length_eq_two.mp (BigEndian.length_encode 2 n)
  obtain ⟨hlow, hhigh⟩ := h
  have hsigned := BigEndian.signed_encode 2 (n := n) (by omega) (by omega)
  rw [hbytes] at hsigned
  refine ⟨b1, b2, hbytes, ?_⟩
  rw [entry, hsigned]
  exact Scalar.isTwoDotFourteen_ofTwoDotFourteen (IsWord.abs_lt_two_pow ⟨hlow, hhigh⟩)

theorem translation_readLinear (bytes : List UInt8) :
    Denotes (readLinear bytes : Affine α).dx 0 ∧ Denotes (readLinear bytes : Affine α).dy 0 := by
  unfold readLinear
  split <;> exact ⟨Scalar.denotes_zero, Scalar.denotes_zero⟩

theorem hasEntries_readLinear {xx yx xy yy : ℤ} (hxx : IsWord xx) (hyx : IsWord yx)
    (hxy : IsWord xy) (hyy : IsWord yy) {flags : LayoutFlags} {words : List ℤ}
    (h : writtenEntries xx yx xy yy = (flags, words)) :
    flags &&& LayoutFlags.entryGroup = flags ∧
      (words.flatMap (BigEndian.encode 2)).length = flags.entryLength ∧
      (readLinear (words.flatMap (BigEndian.encode 2)) : Affine α).HasEntries xx yx xy yy := by
  have hzero := Scalar.isTwoDotFourteen_zero (α := α)
  obtain ⟨a, b, hab, hentry⟩ := exists_encode_two (α := α) hxx
  obtain ⟨c, d, hcd, hentry'⟩ := exists_encode_two (α := α) hyy
  unfold writtenEntries at h
  dsimp only at h
  split_ifs at h with hfull hone hsame
  · cases h
    obtain ⟨e, f, hef, hyx⟩ := exists_encode_two (α := α) hyx
    obtain ⟨i, j, hij, hxy⟩ := exists_encode_two (α := α) hxy
    simp only [List.flatMap_cons, List.flatMap_nil, hab, hcd, hef, hij]
    exact ⟨rfl, rfl, hentry, hyx, hxy, hentry'⟩
  all_goals
    obtain ⟨rfl, rfl⟩ : yx = 0 ∧ xy = 0 := by omega
    cases h
  · obtain ⟨rfl, rfl⟩ := hone
    exact ⟨rfl, rfl, Scalar.isTwoDotFourteen_one, hzero, hzero, Scalar.isTwoDotFourteen_one⟩
  · subst hsame
    simp only [List.flatMap_cons, List.flatMap_nil, hab]
    exact ⟨rfl, rfl, hentry, hzero, hzero, hentry⟩
  · simp only [List.flatMap_cons, List.flatMap_nil, hab, hcd]
    exact ⟨rfl, rfl, hentry, hzero, hzero, hentry'⟩

-- ---------------------------------------------------------------------------
-- Arguments
-- ---------------------------------------------------------------------------

/-- Where a component is placed, in whole numbers that fit: by an offset of its own, or without one
by a pair of points. -/
def IsPlaced (c : Component α) : Prop :=
  match c.pointMatch with
  | none => ∃ x y : ℤ, IsWord x ∧ IsWord y ∧ Denotes c.transform.dx x ∧ Denotes c.transform.dy y
  | some _ => Denotes c.transform.dx 0 ∧ Denotes c.transform.dy 0

/-- Two fields are the arguments of a component in the form that flags tell. -/
structure HasArguments (c : Component α) (flags : LayoutFlags) (first second : List UInt8) :
    Prop where
  group : flags &&& LayoutFlags.argumentGroup = flags
  first_length : first.length = flags.argumentLength / 2
  second_length : second.length = flags.argumentLength / 2
  isOffset : flags.contains LayoutFlags.argumentsAreOffset = c.pointMatch.isNone
  offset : c.pointMatch = none →
    Denotes c.transform.dx (BigEndian.signed first) ∧
      Denotes c.transform.dy (BigEndian.signed second)
  points : ∀ m, c.pointMatch = some m →
    m.base.toNat = BigEndian.unsigned first ∧ m.component.toNat = BigEndian.unsigned second

theorem offsetWord_ok {a : α} {n word : ℤ} (h : offsetWord a = .ok word) (ha : Denotes a n)
    (hn : IsWord n) : word = n := by
  unfold offsetWord at h
  dsimp only at h
  split_ifs at h
  cases h
  obtain ⟨hlow, hhigh⟩ := hn
  exact (Scalar.isFixed_whole.mpr ha).toInt32_roundUp (by omega) (by omega)

theorem unsigned_encode_two (n : UInt16) :
    BigEndian.unsigned (BigEndian.encode 2 n.toNat) = n.toNat := by
  have hlt := n.toNat_lt
  have := BigEndian.unsigned_encode 2 n.toNat
  omega

theorem unsigned_toUInt8 {n : UInt16} (h : ¬ 0xff < n) :
    BigEndian.unsigned [n.toUInt8] = n.toNat := by
  have hle : n.toNat ≤ 0xff := Nat.le_of_not_lt fun hlt => h (UInt16.lt_iff_toNat_lt.mpr hlt)
  rw [BigEndian.unsigned, List.foldl_cons, List.foldl_nil, UInt16.toNat_toUInt8]
  omega

theorem hasArguments_offset {c : Component α} (hmatch : c.pointMatch = none) {x y : ℤ}
    (hdx : Denotes c.transform.dx x) (hdy : Denotes c.transform.dy y) {flags : LayoutFlags}
    (hgroup : flags &&& LayoutFlags.argumentGroup = flags)
    (hoffset : flags.contains LayoutFlags.argumentsAreOffset = true) {k : ℕ}
    (hsize : flags.argumentLength / 2 = k) (hx : -(256 ^ k) ≤ 2 * x ∧ 2 * x < 256 ^ k)
    (hy : -(256 ^ k) ≤ 2 * y ∧ 2 * y < 256 ^ k) :
    c.HasArguments flags (BigEndian.encode k x) (BigEndian.encode k y) := by
  refine ⟨hgroup, ?_, ?_, ?_, fun _ => ?_, ?_⟩
  · rw [BigEndian.length_encode, hsize]
  · rw [BigEndian.length_encode, hsize]
  · rw [hoffset, hmatch]
    rfl
  · rw [BigEndian.signed_encode k hx.1 hx.2, BigEndian.signed_encode k hy.1 hy.2]
    exact ⟨hdx, hdy⟩
  · rw [hmatch]
    nofun

theorem hasArguments_points {c : Component α} {m : PointMatch} (hmatch : c.pointMatch = some m)
    {flags : LayoutFlags} {first second : List UInt8}
    (hgroup : flags &&& LayoutFlags.argumentGroup = flags)
    (hoffset : flags.contains LayoutFlags.argumentsAreOffset = false)
    (hlength : first.length = flags.argumentLength / 2)
    (hlength' : second.length = flags.argumentLength / 2)
    (hbase : BigEndian.unsigned first = m.base.toNat)
    (hcomponent : BigEndian.unsigned second = m.component.toNat) :
    c.HasArguments flags first second := by
  refine ⟨hgroup, hlength, hlength', ?_, ?_, ?_⟩
  · rw [hoffset, hmatch]
    rfl
  · rw [hmatch]
    nofun
  · rw [hmatch]
    rintro _ ⟨⟩
    exact ⟨hbase.symm, hcomponent.symm⟩

theorem hasArguments_written {c : Component α} (hplaced : c.IsPlaced)
    (hplain : c.flags.scalesOffset = false) {flags : LayoutFlags} {arguments : List UInt8}
    (h : c.writtenArguments = .ok (flags, arguments)) :
    ∃ first second, arguments = first ++ second ∧ c.HasArguments flags first second := by
  unfold IsPlaced at hplaced
  unfold writtenArguments at h
  rcases hmatch : c.pointMatch with _ | m
  · rw [hmatch] at h hplaced
    obtain ⟨x, y, hx, hy, hdx, hdy⟩ := hplaced
    simp only [hplain, Bool.false_and, Bool.false_eq_true, if_false] at h
    obtain ⟨x', hx', h⟩ := bind_ok.mp h
    obtain ⟨y', hy', h⟩ := bind_ok.mp h
    obtain rfl := offsetWord_ok hx' hdx hx
    obtain rfl := offsetWord_ok hy' hdy hy
    obtain ⟨hxlow, hxhigh⟩ := hx
    obtain ⟨hylow, hyhigh⟩ := hy
    split_ifs at h with hsmall
    · cases h
      exact ⟨_, _, rfl, hasArguments_offset hmatch hdx hdy rfl rfl (k := 1) rfl
        ⟨by omega, by omega⟩ ⟨by omega, by omega⟩⟩
    · cases h
      exact ⟨_, _, rfl, hasArguments_offset hmatch hdx hdy rfl rfl (k := 2) rfl
        ⟨by omega, by omega⟩ ⟨by omega, by omega⟩⟩
  · rw [hmatch] at h
    dsimp only at h
    split_ifs at h with hwide
    · cases h
      exact ⟨_, _, rfl, hasArguments_points hmatch rfl rfl (BigEndian.length_encode 2 _)
        (BigEndian.length_encode 2 _) (unsigned_encode_two _) (unsigned_encode_two _)⟩
    · cases h
      obtain ⟨hbase, hcomponent⟩ := not_or.mp hwide
      exact ⟨[m.base.toUInt8], [m.component.toUInt8], rfl, hasArguments_points hmatch rfl rfl rfl
        rfl (unsigned_toUInt8 hbase) (unsigned_toUInt8 hcomponent)⟩

-- ---------------------------------------------------------------------------
-- Components
-- ---------------------------------------------------------------------------

structure IsWritable (c : Component α) : Prop where
  target : ∃ id, c.target = .glyph id
  entries : ∃ xx yx xy yy : ℤ, (IsWord xx ∧ IsWord yx ∧ IsWord xy ∧ IsWord yy) ∧
    c.transform.HasEntries xx yx xy yy
  isPlaced : c.IsPlaced
  plain : c.flags.scalesOffset = false

theorem isWritable_of_beq {c : Component α} {id : GlyphId} (hid : c.target = .glyph id)
    (hplain : c.flags.scalesOffset = false) (xx yx xy yy x y : ℤ)
    (hwords : ∀ n ∈ [xx, yx, xy, yy, x, y], IsWord n)
    (htransform : (c.transform == ⟨Scalar.ofTwoDotFourteen xx, Scalar.ofTwoDotFourteen yx,
      Scalar.ofTwoDotFourteen xy, Scalar.ofTwoDotFourteen yy, Scalar.ofInt x,
      Scalar.ofInt y⟩) = true)
    (hmatch : c.pointMatch = none ∨ x = 0 ∧ y = 0) : c.IsWritable := by
  have hentry {a : α} {n : ℤ} (hn : IsWord n) (ha : (a == Scalar.ofTwoDotFourteen n) = true) :
      Scalar.IsTwoDotFourteen a n :=
    LawfulScalar.denotes_of_beq ha (Scalar.isTwoDotFourteen_ofTwoDotFourteen hn.abs_lt_two_pow)
  have hwhole {a : α} {n : ℤ} (hn : IsWord n) (ha : (a == Scalar.ofInt n) = true) : Denotes a n :=
    LawfulScalar.denotes_of_beq ha (LawfulScalar.ofInt hn.abs_lt_two_pow)
  simp only [List.forall_mem_cons] at hwords
  obtain ⟨hxx, hyx, hxy, hyy, hx, hy, -⟩ := hwords
  obtain ⟨hxx', hyx', hxy', hyy', hx', hy'⟩ := Affine.beq_iff.mp htransform
  refine ⟨⟨id, hid⟩, ⟨xx, yx, xy, yy, ⟨hxx, hyx, hxy, hyy⟩, hentry hxx hxx', hentry hyx hyx',
    hentry hxy hxy', hentry hyy hyy'⟩, ?_, hplain⟩
  have hdx := hwhole hx hx'
  have hdy := hwhole hy hy'
  unfold IsPlaced
  rcases hmatch with hnone | ⟨rfl, rfl⟩
  · rw [hnone]
    exact ⟨x, y, hx, hy, hdx, hdy⟩
  · rw [Int.cast_zero] at hdx hdy
    split
    · exact ⟨0, 0, hx, hy, by rwa [Int.cast_zero], by rwa [Int.cast_zero]⟩
    · exact ⟨hdx, hdy⟩

structure HasLayout (c : Component α) (flags : LayoutFlags) (id : GlyphId)
    (first second entries : List UInt8) : Prop where
  target : c.target = .glyph id
  all : flags &&& .all = flags
  options : flags.options = c.flags
  arguments : c.HasArguments (flags &&& LayoutFlags.argumentGroup) first second
  entryLength : entries.length = flags.entryLength
  linear : ∃ xx yx xy yy : ℤ, c.transform.HasEntries xx yx xy yy ∧
    (readLinear entries : Affine α).HasEntries xx yx xy yy

theorem exists_layout [LawfulNarrow α] {c : Component α} (hc : c.IsWritable)
    {following : LayoutFlags} (hfollowing : following &&& LayoutFlags.followingGroup = following)
    {bytes : List UInt8} (h : c.toBytes following = .ok bytes) :
    ∃ flags id first second entries, c.HasLayout flags id first second entries ∧
      flags &&& LayoutFlags.followingGroup = following ∧
      bytes = BigEndian.encode 2 flags.word ++ BigEndian.encode 2 id.toNat ++ (first ++ second) ++
        entries := by
  obtain ⟨id, hid⟩ := hc.target
  obtain ⟨xx, yx, xy, yy, ⟨hxx, hyx, hxy, hyy⟩, hentries⟩ := hc.entries
  obtain ⟨id', hid', h⟩ := bind_ok.mp h
  obtain ⟨xx', hxx', h⟩ := bind_ok.mp h
  obtain ⟨yx', hyx', h⟩ := bind_ok.mp h
  obtain ⟨xy', hxy', h⟩ := bind_ok.mp h
  obtain ⟨yy', hyy', h⟩ := bind_ok.mp h
  obtain rfl := entryWord_ok hxx' hentries.xx hxx
  obtain rfl := entryWord_ok hyx' hentries.yx hyx
  obtain rfl := entryWord_ok hxy' hentries.xy hxy
  obtain rfl := entryWord_ok hyy' hentries.yy hyy
  obtain rfl : id = id' := by
    rw [writtenId, hid] at hid'
    cases hid'
    rfl
  obtain ⟨entryFlags, words, hwords⟩ :
      ∃ flags words, writtenEntries xx' yx' xy' yy' = (flags, words) := ⟨_, _, rfl⟩
  rw [hwords] at h
  obtain ⟨⟨argumentFlags, arguments⟩, harguments, h⟩ := bind_ok.mp h
  cases h
  obtain ⟨hgroup, hlength, hlinear⟩ := hasEntries_readLinear (α := α) hxx hyx hxy hyy hwords
  obtain ⟨first, second, rfl, hfields⟩ := hasArguments_written hc.isPlaced hc.plain harguments
  have hjoins := LayoutFlags.joins_union c.flags hfollowing hgroup hfields.group
  refine ⟨_, id, first, second, _, ⟨hid, hjoins.all, hjoins.options, ?_, ?_, _, _, _, _, hentries,
    hlinear⟩, hjoins.following, rfl⟩
  · rw [hjoins.arguments]
    exact hfields
  · rw [hlength, ← LayoutFlags.entryLength_inter (_ ||| _), hjoins.entries]

namespace HasLayout

variable {c : Component α} {flags : LayoutFlags} {id : GlyphId} {first second entries : List UInt8}

theorem argumentLength (h : c.HasLayout flags id first second entries) :
    first.length = flags.argumentLength / 2 ∧ second.length = flags.argumentLength / 2 := by
  rw [← LayoutFlags.argumentLength_inter]
  exact ⟨h.arguments.first_length, h.arguments.second_length⟩

theorem ofLayout_beq (h : c.HasLayout flags id first second entries) (hc : c.IsWritable) :
    (ofLayout flags id (first ++ second) entries == c) = true := by
  have hbeq {a b : α} {q : ℚ} (ha : Denotes a q) (hb : Denotes b q) : (a == b) = true :=
    (LawfulScalar.beq_iff ha hb).mpr rfl
  obtain ⟨xx, yx, xy, yy, hentries, hlinear⟩ := h.linear
  have hoffset : flags.contains LayoutFlags.argumentsAreOffset = c.pointMatch.isNone := by
    rw [← h.arguments.isOffset, FlagSet.contains_inter rfl]
  have hplaced := hc.isPlaced
  unfold IsPlaced at hplaced
  unfold ofLayout
  dsimp only
  rw [List.take_left' h.argumentLength.1, List.drop_left' h.argumentLength.1, h.options, hc.plain,
    hoffset]
  rcases hmatch : c.pointMatch with _ | m
  · obtain ⟨hdx, hdy⟩ := h.arguments.offset hmatch
    have hword (bytes : List UInt8) (hlength : bytes.length = flags.argumentLength / 2) :
        Denotes (Scalar.ofInt (BigEndian.signed bytes) : α) (BigEndian.signed bytes) := by
      have hshort : bytes.length ≤ 2 := by
        rw [hlength, LayoutFlags.argumentLength]
        split_ifs <;> norm_num
      have hmem := BigEndian.signed_mem bytes
      have hpow : (2 : ℤ) ^ (8 * bytes.length) ≤ 2 ^ 16 :=
        pow_le_pow_right₀ (by norm_num) (by omega)
      exact LawfulScalar.ofInt (by rw [abs_lt]; omega)
    simp only [Option.isNone_none, if_true, Bool.false_eq_true, if_false]
    refine beq_iff.mpr ⟨h.target.symm, Affine.beq_iff.mpr ⟨hbeq hlinear.xx hentries.xx,
      hbeq hlinear.yx hentries.yx, hbeq hlinear.xy hentries.xy, hbeq hlinear.yy hentries.yy,
      hbeq (hword _ h.argumentLength.1) hdx, hbeq (hword _ h.argumentLength.2) hdy⟩, hmatch.symm,
      rfl⟩
  · rw [hmatch] at hplaced
    obtain ⟨hdx, hdy⟩ := translation_readLinear (α := α) entries
    obtain ⟨hbase, hcomponent⟩ := h.arguments.points m hmatch
    simp only [Option.isNone_some, Bool.false_eq_true, if_false]
    refine beq_iff.mpr ⟨h.target.symm, Affine.beq_iff.mpr ⟨hbeq hlinear.xx hentries.xx,
      hbeq hlinear.yx hentries.yx, hbeq hlinear.xy hentries.xy, hbeq hlinear.yy hentries.yy,
      hbeq hdx hplaced.1, hbeq hdy hplaced.2⟩, ?_, rfl⟩
    rw [← hbase, ← hcomponent, UInt16.ofNat_toNat, UInt16.ofNat_toNat, hmatch]

theorem readComponents (h : c.HasLayout flags id first second entries) (rest : List UInt8) :
    (Record.readComponents (BigEndian.encode 2 flags.word ++ BigEndian.encode 2 id.toNat ++
        (first ++ second) ++ entries ++ rest) : List (Component α) × _) =
      if flags.contains LayoutFlags.moreComponents then
        (ofLayout flags id (first ++ second) entries :: (Record.readComponents rest).1,
          (Record.readComponents rest : List (Component α) × _).2)
      else ([ofLayout flags id (first ++ second) entries], some (flags, rest)) := by
  obtain ⟨f1, f2, hflags⟩ := List.length_eq_two.mp (BigEndian.length_encode 2 flags.word)
  obtain ⟨g1, g2, hid⟩ := List.length_eq_two.mp (BigEndian.length_encode 2 id.toNat)
  have hword : (FlagSet.ofWord (BigEndian.unsigned [f1, f2]) : LayoutFlags) = flags := by
    have hle : flags.word ≤ 0x1fef := FlagSet.word_le h.all
    have hunsigned := BigEndian.unsigned_encode 2 flags.word
    rw [hflags] at hunsigned
    rw [show BigEndian.unsigned [f1, f2] = flags.word by omega]
    exact FlagSet.ofWord_word h.all
  have hglyph : UInt16.ofNat (BigEndian.unsigned [g1, g2]) = id := by
    rw [← hid, unsigned_encode_two, UInt16.ofNat_toNat]
  have harguments : (first ++ second).length = flags.argumentLength := by
    rw [List.length_append, h.argumentLength.1, h.argumentLength.2, LayoutFlags.argumentLength]
    split_ifs <;> rfl
  have hlength : (first ++ second ++ entries).length =
      flags.argumentLength + flags.entryLength := by
    rw [List.length_append, harguments, h.entryLength]
  rw [hflags, hid, List.append_assoc _ (first ++ second) entries, List.append_assoc _ _ rest]
  simp only [List.cons_append, List.nil_append]
  rw [Record.readComponents]
  simp only [hword, hglyph, List.take_left' hlength, List.drop_left' hlength, hlength,
    lt_irrefl, if_false, List.take_left' harguments, List.drop_left' harguments]

end HasLayout

end Component

end Letterform
