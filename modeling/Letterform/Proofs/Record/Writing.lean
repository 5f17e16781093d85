import Letterform.Proofs.Except
import Letterform.Proofs.Record.Flags
import Letterform.Proofs.Record.Layout
import Letterform.Record.Simple

/-!
# What is written for a simple record

The flags of a record fold into runs, and each tells the form of the steps to its point. So the
bytes of a record have its layout: with its bounds, the ends of its contours and its instructions,
and with flags that mean what the points are, whether they are marked as repeated or not.
-/

namespace Letterform

-- ---------------------------------------------------------------------------
-- Flags
-- ---------------------------------------------------------------------------

theorem exists_padded (bytes : List UInt8) : ∃ rest, padded bytes = bytes ++ rest := by
  unfold padded
  split_ifs
  · exact ⟨[], (List.append_nil bytes).symm⟩
  · exact ⟨[0], rfl⟩

namespace RecordPoint

def isShort (d : ℤ) : Bool := d ≠ 0 && -255 ≤ d && d ≤ 255

/-- Whether a step takes no byte or is a positive one that takes a single byte. -/
def isSame (d : ℤ) : Bool := 0 ≤ d && d ≤ 255

theorem stepFlags_eq (short same : PointFlags) (d : ℤ) :
    stepFlags short same d = short.when (isShort d) ||| same.when (isSame d) := by
  have hforms (short' same' : Bool) (hshort : isShort d = short') (hsame : isSame d = same') :
      short.when (isShort d) ||| same.when (isSame d) =
        (if short' then short else .empty) ||| (if same' then same else .empty) := by
    rw [hshort, hsame]
    rfl
  unfold stepFlags
  split_ifs with hzero hnegative hpositive
  · rw [hforms false true (by simp [isShort, hzero]) (by simp [isSame, hzero])]
    exact (FlagSet.empty_union same).symm
  · rw [hforms true false (by simp [isShort]; omega) (by simp [isSame]; omega)]
    exact (FlagSet.union_empty short).symm
  · rw [hforms true true (by simp [isShort]; omega) (by simp [isSame]; omega)]
    rfl
  · rw [hforms false false (by simp [isShort]; omega) (by simp [isSame]; omega)]
    exact (FlagSet.union_empty .empty).symm

/-- A flag tells whether its point is on the curve and in which form the steps to it are. -/
structure Tells (p : RecordPoint) (f : PointFlags) : Prop where
  onCurve : f.contains PointFlags.onCurve = p.onCurve
  xShort : f.contains PointFlags.xShort = isShort p.dx
  xSame : f.contains PointFlags.xSame = isSame p.dx
  yShort : f.contains PointFlags.yShort = isShort p.dy
  ySame : f.contains PointFlags.ySame = isSame p.dy

theorem Tells.of_without {p : RecordPoint} {f : PointFlags}
    (h : p.Tells (f.without PointFlags.repeated)) : p.Tells f := by
  constructor
  · rw [← h.onCurve, FlagSet.contains_without (by rfl)]
  · rw [← h.xShort, FlagSet.contains_without (by rfl)]
  · rw [← h.xSame, FlagSet.contains_without (by rfl)]
  · rw [← h.yShort, FlagSet.contains_without (by rfl)]
  · rw [← h.ySame, FlagSet.contains_without (by rfl)]

structure IsPlain (f : PointFlags) : Prop where
  lt : f.word < 128
  single : f.contains PointFlags.repeated = false

/-- The flags with which the first point of a record is written. -/
def formed (xShort xSame yShort ySame onCurve overlaps : Bool) : PointFlags :=
  (PointFlags.xShort.when xShort ||| PointFlags.xSame.when xSame) |||
    (PointFlags.yShort.when yShort ||| PointFlags.ySame.when ySame) |||
    PointFlags.onCurve.when onCurve ||| PointFlags.overlap.when overlaps

theorem flags_eq_formed (p : RecordPoint) (overlaps : Bool) :
    p.flags ||| PointFlags.overlap.when overlaps =
      formed (isShort p.dx) (isSame p.dx) (isShort p.dy) (isSame p.dy) p.onCurve overlaps := by
  rw [flags, stepFlags_eq, stepFlags_eq, formed]

theorem contains_formed : ∀ xShort xSame yShort ySame onCurve overlaps : Bool,
    let f := formed xShort xSame yShort ySame onCurve overlaps
    f.contains PointFlags.xShort = xShort ∧ f.contains PointFlags.xSame = xSame ∧
      f.contains PointFlags.yShort = yShort ∧ f.contains PointFlags.ySame = ySame ∧
      f.contains PointFlags.onCurve = onCurve ∧ f.contains PointFlags.overlap = overlaps := by
  decide

theorem isPlain_formed : ∀ xShort xSame yShort ySame onCurve overlaps : Bool,
    let f := formed xShort xSame yShort ySame onCurve overlaps
    f.word < 128 ∧ f.contains PointFlags.repeated = false := by
  decide

variable (p : RecordPoint) (overlaps : Bool)

theorem tells_flags : p.Tells (p.flags ||| PointFlags.overlap.when overlaps) := by
  rw [flags_eq_formed]
  obtain ⟨hxShort, hxSame, hyShort, hySame, honCurve, -⟩ := contains_formed (isShort p.dx)
    (isSame p.dx) (isShort p.dy) (isSame p.dy) p.onCurve overlaps
  exact ⟨honCurve, hxShort, hxSame, hyShort, hySame⟩

theorem isPlain_flags : IsPlain (p.flags ||| PointFlags.overlap.when overlaps) := by
  rw [flags_eq_formed]
  obtain ⟨hlt, hsingle⟩ := isPlain_formed (isShort p.dx) (isSame p.dx) (isShort p.dy)
    (isSame p.dy) p.onCurve overlaps
  exact ⟨hlt, hsingle⟩

theorem contains_overlap :
    (p.flags ||| PointFlags.overlap.when overlaps).contains PointFlags.overlap = overlaps := by
  rw [flags_eq_formed]
  exact (contains_formed _ _ _ _ _ _).2.2.2.2.2

theorem flags_union_empty : p.flags ||| PointFlags.overlap.when false = p.flags :=
  FlagSet.union_empty p.flags

end RecordPoint

namespace SimpleRecord

open Record RecordPoint

-- ---------------------------------------------------------------------------
-- Runs of flags
-- ---------------------------------------------------------------------------

theorem ofWord_flagByte {f : PointFlags} (h : f.word < 128) :
    FlagSet.ofWord (flagByte f).toNat = f := by
  have hbyte : (flagByte f).toNat = f.word := by
    rw [flagByte, UInt8.toNat_ofNat']
    omega
  have hmask : f.word &&& pointFlagTable.word = f.word := by
    rw [show pointFlagTable.word = 2 ^ 7 - 1 by decide, Nat.and_two_pow_sub_one_eq_mod]
    omega
  rw [hbyte, FlagSet.ofWord, hmask]

theorem ofWord_repeated {f : PointFlags} (h : IsPlain f) :
    FlagSet.ofWord (flagByte (f ||| .repeated)).toNat = f ||| PointFlags.repeated :=
  ofWord_flagByte (Nat.or_lt_two_pow (n := 7) h.lt (by decide))

theorem contains_repeated (f : PointFlags) :
    (f ||| PointFlags.repeated).contains PointFlags.repeated = true := by
  show ((f.word ||| 8) &&& 8 == 8) = true
  rw [beq_iff_eq]
  refine Nat.eq_of_testBit_eq fun i => ?_
  rw [Nat.testBit_and, Nat.testBit_or]
  cases Nat.testBit 8 i <;> simp

theorem take_repetitions (f : PointFlags) (rest : List PointFlags) :
    let repetitions := ((rest.take 255).takeWhile (· == f)).length
    repetitions ≤ 255 ∧ rest = List.replicate repetitions f ++ rest.drop repetitions := by
  intro repetitions
  have hprefix := (List.takeWhile_prefix (l := rest.take 255) (· == f)).trans
    (List.take_prefix 255 rest)
  have hall : (rest.take 255).takeWhile (· == f) = List.replicate repetitions f :=
    List.eq_replicate_iff.mpr ⟨rfl, fun g hg => by simpa using List.mem_takeWhile_imp hg⟩
  refine ⟨?_, ?_⟩
  · exact (List.takeWhile_prefix _).length_le.trans (List.length_take_le 255 rest)
  · rw [← hall, List.prefix_iff_eq_take.mp hprefix]
    exact (List.take_append_drop repetitions rest).symm

theorem without_repeated {f : PointFlags} (h : IsPlain f) :
    f.without PointFlags.repeated = f ∧
      (f ||| PointFlags.repeated).without PointFlags.repeated = f := by
  have hwords : ∀ w < 128, (w &&& 8 == 8) = false →
      w ^^^ (w &&& 8) = w ∧ (w ||| 8) ^^^ ((w ||| 8) &&& 8) = w := by decide
  obtain ⟨hplain, hmarked⟩ := hwords f.word h.lt h.single
  exact ⟨congrArg FlagSet.mk hplain, congrArg FlagSet.mk hmarked⟩

theorem flagRuns_repeatedFlag {f : PointFlags} (hf : IsPlain f) {n count : ℕ} (hn : n ≤ 255)
    {bytes : List UInt8} {read : List PointFlags} (h : FlagRuns count bytes read false) :
    ∃ f' : PointFlags, f'.without PointFlags.repeated = f ∧
      FlagRuns (count + (n + 1)) (repeatedFlag f n ++ bytes)
        (List.replicate (n + 1) f' ++ read) false := by
  have hword := ofWord_flagByte hf.lt
  have hsingle {count bytes read} (h : FlagRuns count bytes read false) :
      FlagRuns (count + 1) (flagByte f :: bytes) (f :: read) false := by
    have := h.single (b := flagByte f) (by rw [hword, hf.single])
    rwa [hword] at this
  match n with
  | 0 => exact ⟨f, (without_repeated hf).1, hsingle h⟩
  | 1 => exact ⟨f, (without_repeated hf).1, hsingle (hsingle h)⟩
  | n + 2 =>
    have hcount : (UInt8.ofNat (n + 2)).toNat = n + 2 := by
      rw [UInt8.toNat_ofNat']
      omega
    have hrun := h.run (b := flagByte (f ||| .repeated)) (n := UInt8.ofNat (n + 2))
      (by rw [ofWord_repeated hf, contains_repeated])
    rw [ofWord_repeated hf, hcount] at hrun
    exact ⟨f ||| PointFlags.repeated, (without_repeated hf).2, hrun⟩

theorem flagRuns_packFlags {flags : List PointFlags} (h : ∀ f ∈ flags, IsPlain f) :
    ∃ read : List PointFlags, FlagRuns flags.length (packFlags flags) read false ∧
      read.map (·.without PointFlags.repeated) = flags := by
  induction flags using packFlags.induct with
  | case1 =>
    rw [packFlags]
    exact ⟨[], .nil, rfl⟩
  | case2 f rest repetitions ih =>
    obtain ⟨hf, hrest⟩ := List.forall_mem_cons.mp h
    obtain ⟨read, hruns, hread⟩ := ih fun g hg => hrest g (List.mem_of_mem_drop hg)
    obtain ⟨hle, hsplit⟩ := take_repetitions f rest
    obtain ⟨f', hf', hrun⟩ := flagRuns_repeatedFlag hf hle hruns
    have hflags : f :: rest = List.replicate (repetitions + 1) f ++ rest.drop repetitions := by
      rw [List.replicate_succ, List.cons_append, ← hsplit]
    have hlength : (f :: rest).length = (rest.drop repetitions).length + (repetitions + 1) := by
      rw [hflags, List.length_append, List.length_replicate, Nat.add_comm]
    refine ⟨List.replicate (repetitions + 1) f' ++ read, ?_, ?_⟩
    · rw [packFlags, hlength]
      exact hrun
    · rw [hflags, List.map_append, List.map_replicate, hf', hread]

-- ---------------------------------------------------------------------------
-- Steps
-- ---------------------------------------------------------------------------

theorem steps_stepBytes {short same : PointFlags} {points : List RecordPoint}
    {flags : List PointFlags} (step : RecordPoint → ℤ) (hword : ∀ p ∈ points, IsWord (step p))
    (h : List.Forall₂ (fun p f => f.contains short = isShort (step p) ∧
      f.contains same = isSame (step p)) points flags) :
    Steps short same flags (points.map step) (points.flatMap (stepBytes <| step ·)) := by
  induction h with
  | nil => exact .nil
  | @cons p f points flags hf _ ih =>
    obtain ⟨hshort, hsame⟩ := hf
    obtain ⟨hp, hrest⟩ := List.forall_mem_cons.mp hword
    have hsteps := ih hrest
    rw [List.map_cons, List.flatMap_cons]
    generalize step p = d at hshort hsame hp
    rw [stepBytes]
    split_ifs with hzero hbyte
    · rw [hzero]
      exact .same (by rw [hshort, hzero]; rfl) (by rw [hsame, hzero]; rfl) hsteps
    · have hshort' : f.contains short = true := by
        rw [hshort]
        simp [isShort]
        omega
      have hstep := hsteps.short (UInt8.ofNat d.natAbs) hshort'
      have hbyte : (UInt8.ofNat d.natAbs).toNat = d.natAbs := by
        rw [UInt8.toNat_ofNat']
        omega
      have hvalue : (if f.contains same then ((UInt8.ofNat d.natAbs).toNat : ℤ)
          else -((UInt8.ofNat d.natAbs).toNat : ℤ)) = d := by
        rw [hsame, isSame, hbyte]
        split_ifs with hsign
        · simp only [Bool.and_eq_true, decide_eq_true_iff] at hsign
          omega
        · simp only [Bool.and_eq_true, decide_eq_true_iff] at hsign
          omega
      rwa [hvalue] at hstep
    · have hbytes : ∃ b1 b2, BigEndian.encode 2 d = [b1, b2] :=
        List.length_eq_two.mp (BigEndian.length_encode 2 d)
      obtain ⟨b1, b2, hbytes⟩ := hbytes
      have hshort' : f.contains short = false := by
        rw [hshort]
        simp [isShort]
        omega
      have hsame' : f.contains same = false := by
        rw [hsame]
        simp [isSame]
        omega
      have hstep := hsteps.long b1 b2 hshort' hsame'
      rw [← hbytes, BigEndian.signed_encode 2 (by have := hp.1; omega) (by have := hp.2; omega)]
        at hstep
      rw [hbytes]
      exact hstep

-- ---------------------------------------------------------------------------
-- Records
-- ---------------------------------------------------------------------------

variable {r : SimpleRecord}

theorem forall₂_flags (r : SimpleRecord) :
    List.Forall₂ (fun p f => p.Tells f ∧ IsPlain f) r.points r.flags := by
  have hrest (points : List RecordPoint) :
      List.Forall₂ (fun p f => p.Tells f ∧ IsPlain f) points (points.map (·.flags)) := by
    rw [List.forall₂_map_right_iff, List.forall₂_same]
    intro p _
    have htells := tells_flags p false
    have hplain := isPlain_flags p false
    rw [flags_union_empty] at htells hplain
    exact ⟨htells, hplain⟩
  unfold flags
  split
  · rename_i hpoints
    rw [hpoints]
    exact .nil
  · rename_i p rest hpoints
    rw [hpoints]
    exact .cons ⟨tells_flags p r.overlaps, isPlain_flags p r.overlaps⟩ (hrest rest)

theorem contains_head?_flags (r : SimpleRecord) :
    ∀ f ∈ r.flags.head?, f.contains PointFlags.overlap = r.overlaps := by
  unfold flags
  split
  · nofun
  · rename_i p rest hpoints
    rintro f ⟨⟩
    exact contains_overlap p r.overlaps

theorem exists_read_flags (r : SimpleRecord) :
    ∃ read, FlagRuns r.points.length (packFlags r.flags) read false ∧
      List.Forall₂ Tells r.points read ∧
      ∀ f ∈ read.head?, f.contains PointFlags.overlap = r.overlaps := by
  have hflags := forall₂_flags r
  have hplain : ∀ f ∈ r.flags, IsPlain f := by
    intro f hf
    obtain ⟨p, -, -, hplain⟩ := exists_of_forall₂ hflags hf
    exact hplain
  obtain ⟨read, hruns, hread⟩ := flagRuns_packFlags hplain
  refine ⟨read, hflags.length_eq ▸ hruns, ?_, fun f hf => ?_⟩
  · rw [← hread, List.forall₂_map_right_iff] at hflags
    exact hflags.imp fun p f hf => hf.1.of_without
  · rw [← FlagSet.contains_without (g := PointFlags.repeated) (by rfl)]
    refine contains_head?_flags r _ ?_
    rw [← hread, List.head?_map, Option.mem_def.mp hf]
    rfl

/-- Everything in a record fits in its place, and its last contour ends with its last point. -/
structure Fits (r : SimpleRecord) : Prop where
  points : ∀ p ∈ r.points, IsWord p.x ∧ IsWord p.y ∧ IsWord p.dx ∧ IsWord p.dy
  contours : r.ends.length < 0x8000
  ends : AreEnds 0 r.ends
  count : Record.pointCount r.ends = r.points.length
  instructions : r.instructions.length ≤ 0xffff

theorem exists_bounds (hne : r.points ≠ []) :
    ∃ left lower right upper, r.bounds = [left, lower, right, upper] ∧
      (r.points.map (·.x)).min? = some left ∧ (r.points.map (·.y)).min? = some lower ∧
      (r.points.map (·.x)).max? = some right ∧ (r.points.map (·.y)).max? = some upper := by
  unfold bounds
  split
  · contradiction
  · rename_i p rest hpoints
    rw [hpoints]
    exact ⟨_, _, _, _, rfl, rfl, rfl, rfl, rfl⟩

theorem describes_toBytes (h : r.Fits) (hne : r.points ≠ []) :
    ∃ l : RecordLayout, l.Describes false r.toBytes ∧
      r.bounds = [l.left, l.lower, l.right, l.upper] ∧ l.ends = r.ends ∧
      l.instructions = r.instructions ∧ List.Forall₂ Tells r.points l.flags ∧
      l.overlaps = r.overlaps ∧ l.xSteps = r.points.map (·.dx) ∧
      l.ySteps = r.points.map (·.dy) := by
  obtain ⟨flags, hruns, htells, hoverlap⟩ := exists_read_flags r
  obtain ⟨left, lower, right, upper, hbounds, hleft, hlower, hright, hupper⟩ := exists_bounds hne
  have hwordX (n : ℤ) (hn : n ∈ r.points.map (·.x)) : IsWord n := by
    obtain ⟨p, hp, rfl⟩ := List.mem_map.mp hn
    exact (h.points p hp).1
  have hwordY (n : ℤ) (hn : n ∈ r.points.map (·.y)) : IsWord n := by
    obtain ⟨p, hp, rfl⟩ := List.mem_map.mp hn
    exact (h.points p hp).2.1
  let l : RecordLayout := ⟨left, lower, right, upper, r.ends, r.instructions, flags,
    r.points.map (·.dx), r.points.map (·.dy)⟩
  have hfits : l.Fits false (packFlags r.flags) (r.points.flatMap (stepBytes ·.dx))
      (r.points.flatMap (stepBytes ·.dy)) := by
    refine ⟨h.contours, hwordX _ (List.min?_mem hleft), hwordY _ (List.min?_mem hlower),
      hwordX _ (List.max?_mem hright), hwordY _ (List.max?_mem hupper), h.ends, h.instructions,
      ?_, ?_, ?_⟩
    · show FlagRuns (Record.pointCount r.ends) _ _ _
      rw [h.count]
      exact hruns
    · exact steps_stepBytes (·.dx) (fun p hp => (h.points p hp).2.2.1)
        (htells.imp fun _ _ hf => ⟨hf.xShort, hf.xSame⟩)
    · exact steps_stepBytes (·.dy) (fun p hp => (h.points p hp).2.2.2)
        (htells.imp fun _ _ hf => ⟨hf.yShort, hf.ySame⟩)
  have hbytes : ∃ rest, r.toBytes = l.bytes (packFlags r.flags)
      (r.points.flatMap (stepBytes ·.dx)) (r.points.flatMap (stepBytes ·.dy)) ++ rest := by
    obtain ⟨rest, hrest⟩ := exists_padded (l.bytes (packFlags r.flags)
      (r.points.flatMap (stepBytes ·.dx)) (r.points.flatMap (stepBytes ·.dy)))
    refine ⟨rest, ?_⟩
    rw [← hrest, toBytes, hbounds]
    congr 1
    simp [RecordLayout.bytes, headerBytes, endBytes, l]
  obtain ⟨rest, hrest⟩ := hbytes
  refine ⟨l, ⟨_, _, _, rest, hfits, hrest⟩, hbounds, rfl, rfl, htells, ?_, rfl, rfl⟩
  cases flags with
  | nil => exact absurd (List.forall₂_nil_right_iff.mp htells) hne
  | cons flag flags => exact hoverlap flag rfl

end SimpleRecord

end Letterform
