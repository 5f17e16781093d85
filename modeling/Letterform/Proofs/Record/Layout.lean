import Letterform.Proofs.Number.BigEndian
import Letterform.Record.Decoding

/-!
# The layout of simple records

What the bytes of a simple record stand for. A flag stands for itself or, with a count, for a row
of equal ones, and tells in which form the steps to its point are written. Every part of a record
is read if and only if it has its layout, whatever follows it.
-/

namespace Letterform.Record

-- ---------------------------------------------------------------------------
-- Numbers
-- ---------------------------------------------------------------------------

theorem take?_append (field rest : List UInt8) :
    take? field.length (field ++ rest) = some (field, rest) := by
  simp [take?]

theorem take?_eq_some {count : ℕ} {bytes field rest : List UInt8}
    (h : take? count bytes = some (field, rest)) :
    bytes = field ++ rest ∧ field.length = count := by
  unfold take? at h
  dsimp only at h
  split_ifs at h with hlt
  cases h
  exact ⟨(List.take_append_drop count bytes).symm, by rw [List.length_take] at hlt ⊢; omega⟩

theorem readUnsigned?_encode {n : ℕ} (h : n ≤ 0xffff) (rest : List UInt8) :
    readUnsigned? (BigEndian.encode 2 n ++ rest) = some (n, rest) := by
  have htake := take?_append (BigEndian.encode 2 n) rest
  rw [BigEndian.length_encode] at htake
  have hn : BigEndian.unsigned (BigEndian.encode 2 n) = n := by
    have := BigEndian.unsigned_encode 2 n
    omega
  simp only [readUnsigned?, htake, Option.bind_eq_bind, Option.bind_some, hn]
  rfl

theorem readUnsigned?_eq_some {bytes rest : List UInt8} {n : ℕ}
    (h : readUnsigned? bytes = some (n, rest)) :
    bytes = BigEndian.encode 2 n ++ rest ∧ n ≤ 0xffff := by
  obtain ⟨⟨field, rest'⟩, htake, h⟩ := Option.bind_eq_some_iff.mp h
  cases h
  obtain ⟨rfl, hlength⟩ := take?_eq_some htake
  have hlt := BigEndian.unsigned_lt field
  have hfield := BigEndian.encode_unsigned field
  rw [hlength] at hlt hfield
  exact ⟨by rw [hfield], by omega⟩

theorem readSigned?_eq_some {bytes rest : List UInt8} {n : ℤ}
    (h : readSigned? bytes = some (n, rest)) :
    ∃ b1 b2, bytes = b1 :: b2 :: rest ∧ n = BigEndian.signed [b1, b2] := by
  obtain ⟨⟨field, rest'⟩, htake, h⟩ := Option.bind_eq_some_iff.mp h
  cases h
  obtain ⟨rfl, hlength⟩ := take?_eq_some htake
  obtain ⟨b1, b2, rfl⟩ := List.length_eq_two.mp hlength
  exact ⟨b1, b2, rfl, rfl⟩

theorem readSigned?_cons (b1 b2 : UInt8) (rest : List UInt8) :
    readSigned? (b1 :: b2 :: rest) = some (BigEndian.signed [b1, b2], rest) := rfl

theorem signed_bounds (b1 b2 : UInt8) :
    -0x8000 ≤ BigEndian.signed [b1, b2] ∧ BigEndian.signed [b1, b2] < 0x8000 :=
  ⟨Int.le_bmod (m := 0x10000) (by norm_num), Int.bmod_lt (m := 0x10000) (by norm_num)⟩

-- ---------------------------------------------------------------------------
-- The ends of contours
-- ---------------------------------------------------------------------------

/-- Numbers of last points: each fits in a word, and none is below the one before. -/
structure AreEnds (previous : ℕ) (ends : List ℕ) : Prop where
  chain : (previous :: ends).IsChain (· ≤ ·)
  le : ∀ last ∈ ends, last ≤ 0xffff

theorem areEnds_nil (previous : ℕ) : AreEnds previous [] :=
  ⟨.singleton previous, nofun⟩

theorem areEnds_cons {previous last : ℕ} {ends : List ℕ} :
    AreEnds previous (last :: ends) ↔ previous ≤ last ∧ last ≤ 0xffff ∧ AreEnds last ends := by
  constructor
  · rintro ⟨hchain, hle⟩
    obtain ⟨hfirst, hchain⟩ := List.isChain_cons_cons.mp hchain
    obtain ⟨hlast, hle⟩ := List.forall_mem_cons.mp hle
    exact ⟨hfirst, hlast, hchain, hle⟩
  · rintro ⟨hfirst, hlast, hchain, hle⟩
    exact ⟨List.isChain_cons_cons.mpr ⟨hfirst, hchain⟩, List.forall_mem_cons.mpr ⟨hlast, hle⟩⟩

def endBytes (ends : List ℕ) : List UInt8 := ends.flatMap fun (last : ℕ) => BigEndian.encode 2 last

theorem readEnds_endBytes {previous : ℕ} {ends : List ℕ} (h : AreEnds previous ends) (i : ℕ)
    (rest : List UInt8) :
    readEnds previous i ends.length (endBytes ends ++ rest) = .ok (ends, rest) := by
  induction ends generalizing previous i with
  | nil => rfl
  | cons last ends ih =>
    obtain ⟨hfirst, hlast, hends⟩ := areEnds_cons.mp h
    rw [endBytes, List.flatMap_cons, List.append_assoc, List.length_cons, readEnds,
      readUnsigned?_encode hlast]
    dsimp only
    rw [if_neg (by omega)]
    have hrest := ih hends (i + 1)
    rw [endBytes] at hrest
    rw [hrest]
    rfl

theorem readEnds_eq_ok {previous i count : ℕ} {bytes rest : List UInt8} {ends : List ℕ}
    (h : readEnds previous i count bytes = .ok (ends, rest)) :
    bytes = endBytes ends ++ rest ∧ ends.length = count ∧ AreEnds previous ends := by
  induction count generalizing previous i bytes ends with
  | zero =>
    cases h
    exact ⟨rfl, rfl, areEnds_nil previous⟩
  | succ count ih =>
    rw [readEnds] at h
    split at h
    · cases h
    · rename_i last rest' hread
      obtain ⟨rfl, hlast⟩ := readUnsigned?_eq_some hread
      split_ifs at h with hlt
      · cases h
      · dsimp only at h
        rcases hrest : readEnds last (i + 1) count rest' with e | ⟨ends', rest''⟩
        · rw [hrest] at h
          cases h
        · rw [hrest] at h
          cases h
          obtain ⟨rfl, hlength, hends⟩ := ih hrest
          refine ⟨?_, by rw [List.length_cons, hlength],
            areEnds_cons.mpr ⟨by omega, hlast, hends⟩⟩
          rw [endBytes, endBytes, List.flatMap_cons, List.append_assoc]

theorem readEnds_error {previous i count : ℕ} {bytes : List UInt8} {e : Error}
    (h : readEnds previous i count bytes = .error e) : e ≠ .repeatCountTooLarge := by
  induction count generalizing previous i bytes with
  | zero => cases h
  | succ count ih =>
    rw [readEnds] at h
    split at h
    · cases h
      nofun
    · rename_i last rest hread
      split_ifs at h
      · cases h
        nofun
      · dsimp only at h
        rcases hrest : readEnds last (i + 1) count rest with e' | ⟨ends, rest'⟩
        · rw [hrest] at h
          cases h
          exact ih hrest
        · rw [hrest] at h
          cases h

/-- The number of points of a record, given the numbers of the last points of its contours. -/
def pointCount (ends : List ℕ) : ℕ :=
  match ends.getLast? with
  | some last => last + 1
  | none => 0

theorem pointCount_cons_cons (last next : ℕ) (ends : List ℕ) :
    pointCount (last :: next :: ends) = pointCount (next :: ends) := by
  rw [pointCount, pointCount, List.getLast?_cons_cons]

theorem AreEnds.pointCount_le {previous : ℕ} {ends : List ℕ} (h : AreEnds previous ends) :
    pointCount ends ≤ 0x10000 := by
  unfold pointCount
  split
  · rename_i last hlast
    have := h.le last (List.mem_of_getLast? hlast)
    omega
  · norm_num

theorem AreEnds.le_pointCount {previous : ℕ} {ends : List ℕ} (h : AreEnds previous ends) :
    ∀ last ∈ ends, last < pointCount ends := by
  induction ends generalizing previous with
  | nil => nofun
  | cons last ends ih =>
    obtain ⟨-, -, hends⟩ := areEnds_cons.mp h
    rcases ends with _ | ⟨next, ends⟩
    · simp [pointCount]
    · have hrest := ih hends
      rw [pointCount_cons_cons]
      obtain ⟨hle, -, -⟩ := areEnds_cons.mp hends
      refine List.forall_mem_cons.mpr ⟨?_, hrest⟩
      have := hrest next List.mem_cons_self
      omega

-- ---------------------------------------------------------------------------
-- Instructions
-- ---------------------------------------------------------------------------

theorem readInstructions?_encode {instructions : List UInt8} (h : instructions.length ≤ 0xffff)
    (rest : List UInt8) :
    readInstructions? (BigEndian.encode 2 instructions.length ++ instructions ++ rest) =
      some (instructions, rest) := by
  rw [readInstructions?, List.append_assoc, readUnsigned?_encode h]
  exact take?_append instructions rest

theorem readInstructions?_eq_some {bytes instructions rest : List UInt8}
    (h : readInstructions? bytes = some (instructions, rest)) :
    bytes = BigEndian.encode 2 instructions.length ++ instructions ++ rest ∧
      instructions.length ≤ 0xffff := by
  obtain ⟨⟨length, rest'⟩, hread, htake⟩ := Option.bind_eq_some_iff.mp h
  obtain ⟨rfl, hlength⟩ := readUnsigned?_eq_some hread
  obtain ⟨rfl, rfl⟩ := take?_eq_some htake
  exact ⟨(List.append_assoc _ _ _).symm, hlength⟩

-- ---------------------------------------------------------------------------
-- Flags
-- ---------------------------------------------------------------------------

/-- The bytes of the flags of so many points, and whether the last count goes too far. -/
inductive FlagRuns : ℕ → List UInt8 → List PointFlags → Bool → Prop
  | nil : FlagRuns 0 [] [] false
  | single {count b bytes flags excess}
      (hflag : (FlagSet.ofWord b.toNat : PointFlags).contains PointFlags.repeated = false)
      (hrest : FlagRuns count bytes flags excess) :
      FlagRuns (count + 1) (b :: bytes) (.ofWord b.toNat :: flags) excess
  | run {count b n bytes flags excess}
      (hflag : (FlagSet.ofWord b.toNat : PointFlags).contains PointFlags.repeated = true)
      (hrest : FlagRuns count bytes flags excess) :
      FlagRuns (count + (n.toNat + 1)) (b :: n :: bytes)
        (List.replicate (n.toNat + 1) (.ofWord b.toNat) ++ flags) excess
  | cut {count b n} (hflag : (FlagSet.ofWord b.toNat : PointFlags).contains PointFlags.repeated = true)
      (hcount : count < n.toNat) :
      FlagRuns (count + 1) [b, n] (List.replicate (count + 1) (.ofWord b.toNat)) true

theorem FlagRuns.length_eq {count : ℕ} {bytes : List UInt8} {flags : List PointFlags}
    {excess : Bool} (h : FlagRuns count bytes flags excess) : flags.length = count := by
  induction h with
  | nil => rfl
  | single _ _ ih => rw [List.length_cons, ih]
  | run _ _ ih => rw [List.length_append, List.length_replicate, ih, Nat.add_comm]
  | cut => exact List.length_replicate

theorem FlagRuns.readFlags? {count : ℕ} {bytes : List UInt8} {flags : List PointFlags}
    {excess : Bool} (h : FlagRuns count bytes flags excess) (rest : List UInt8) :
    readFlags? count (bytes ++ rest) = some (flags, excess, rest) := by
  induction h with
  | nil => simp [Record.readFlags?]
  | single hflag _ ih =>
    rw [List.cons_append, Record.readFlags?.eq_def]
    simp [hflag, ih]
  | @run count b n bytes flags excess hflag _ ih =>
    rw [List.cons_append, List.cons_append, ← Nat.add_assoc, Record.readFlags?]
    have hcount : count + n.toNat - n.toNat = count := by omega
    simp [hflag, hcount, ih]
  | cut hflag hcount =>
    rw [List.cons_append, List.cons_append, Record.readFlags?]
    simp [hflag, hcount]

theorem readFlags?_eq_some {count : ℕ} {bytes rest : List UInt8} {flags : List PointFlags}
    {excess : Bool} (h : readFlags? count bytes = some (flags, excess, rest)) :
    ∃ field, bytes = field ++ rest ∧ FlagRuns count field flags excess := by
  induction count using Nat.strong_induction_on generalizing bytes flags excess with
  | _ count ih =>
    rcases count with _ | count
    · simp only [Record.readFlags?, Option.some.injEq, Prod.mk.injEq] at h
      obtain ⟨rfl, rfl, rfl⟩ := h
      exact ⟨[], rfl, .nil⟩
    · rcases bytes with _ | ⟨b, bytes⟩
      · rw [Record.readFlags?] at h
        cases h
      · rw [Record.readFlags?.eq_def] at h
        dsimp only at h
        split_ifs at h with hflag
        · rcases bytes with _ | ⟨n, bytes⟩
          · cases h
          · dsimp only at h
            split_ifs at h with hcount
            · cases h
              exact ⟨[b, n], rfl, .cut hflag hcount⟩
            · obtain ⟨⟨flags', excess', rest'⟩, hread, h⟩ := Option.bind_eq_some_iff.mp h
              cases h
              obtain ⟨field, rfl, hruns⟩ := ih (count - n.toNat) (by omega) hread
              refine ⟨b :: n :: field, rfl, ?_⟩
              have hsum : count + 1 = count - n.toNat + (n.toNat + 1) := by omega
              rw [hsum]
              exact .run hflag hruns
        · obtain ⟨⟨flags', excess', rest'⟩, hread, h⟩ := Option.bind_eq_some_iff.mp h
          cases h
          obtain ⟨field, rfl, hruns⟩ := ih count (by omega) hread
          exact ⟨b :: field, rfl, .single (by simpa using hflag) hruns⟩

-- ---------------------------------------------------------------------------
-- Steps
-- ---------------------------------------------------------------------------

/-- The bytes of the steps along an axis, each in the form that a flag tells. -/
inductive Steps (short same : PointFlags) : List PointFlags → List ℤ → List UInt8 → Prop
  | nil : Steps short same [] [] []
  | short {flag flags steps bytes} (b : UInt8) (hshort : flag.contains short = true)
      (hrest : Steps short same flags steps bytes) :
      Steps short same (flag :: flags)
        ((if flag.contains same then (b.toNat : ℤ) else -(b.toNat : ℤ)) :: steps) (b :: bytes)
  | same {flag flags steps bytes} (hshort : flag.contains short = false)
      (hsame : flag.contains same = true) (hrest : Steps short same flags steps bytes) :
      Steps short same (flag :: flags) (0 :: steps) bytes
  | long {flag flags steps bytes} (b1 b2 : UInt8) (hshort : flag.contains short = false)
      (hsame : flag.contains same = false) (hrest : Steps short same flags steps bytes) :
      Steps short same (flag :: flags) (BigEndian.signed [b1, b2] :: steps) (b1 :: b2 :: bytes)

def sums (value : ℤ) : List ℤ → List ℤ
  | [] => []
  | step :: steps => (value + step) :: sums (value + step) steps

@[simp] theorem length_sums (value : ℤ) (steps : List ℤ) :
    (sums value steps).length = steps.length := by
  induction steps generalizing value with
  | nil => rfl
  | cons step steps ih => rw [sums, List.length_cons, List.length_cons, ih]

theorem getElem_sums (value : ℤ) (steps : List ℤ) (i : ℕ) (hi : i < (sums value steps).length) :
    (sums value steps)[i] = value + (steps.take (i + 1)).sum := by
  induction steps generalizing value i with
  | nil => cases hi
  | cons step steps ih =>
    cases i with
    | zero => simp [sums]
    | succ i =>
      simp only [sums, List.getElem_cons_succ, ih, List.take_succ_cons, List.sum_cons]
      ring

variable {short same : PointFlags} {flags : List PointFlags} {steps : List ℤ}

theorem Steps.length_eq {bytes : List UInt8} (h : Steps short same flags steps bytes) :
    steps.length = flags.length := by
  induction h with
  | nil => rfl
  | short _ _ _ ih => rw [List.length_cons, List.length_cons, ih]
  | same _ _ _ ih => rw [List.length_cons, List.length_cons, ih]
  | long _ _ _ _ _ ih => rw [List.length_cons, List.length_cons, ih]

theorem Steps.bound {bytes : List UInt8} (h : Steps short same flags steps bytes) :
    ∀ step ∈ steps, |step| ≤ 0x8000 := by
  induction h with
  | nil => nofun
  | short b _ _ ih =>
    refine List.forall_mem_cons.mpr ⟨?_, ih⟩
    have := b.toNat_lt
    rw [abs_le]
    split_ifs <;> omega
  | same _ _ _ ih => exact List.forall_mem_cons.mpr ⟨by norm_num, ih⟩
  | long b1 b2 _ _ _ ih =>
    obtain ⟨hlow, hhigh⟩ := signed_bounds b1 b2
    exact List.forall_mem_cons.mpr ⟨abs_le.mpr ⟨by omega, by omega⟩, ih⟩

theorem Steps.readCoordinates? {bytes : List UInt8} (h : Steps short same flags steps bytes)
    (value : ℤ) (rest : List UInt8) :
    readCoordinates? short same value flags (bytes ++ rest) = some (sums value steps, rest) := by
  induction h generalizing value with
  | nil => rfl
  | short b hshort _ ih => simp [Record.readCoordinates?, hshort, ih, sums]
  | same hshort hsame _ ih => simp [Record.readCoordinates?, hshort, hsame, ih, sums]
  | long b1 b2 hshort hsame _ ih =>
    simp [Record.readCoordinates?, hshort, hsame, readSigned?_cons, ih, sums]

/-- The step in front of some bytes, in the form that a flag tells. -/
def readStep? (short same flag : PointFlags) (bytes : List UInt8) : Option (ℤ × List UInt8) :=
  if flag.contains short then
    match bytes with
    | [] => none
    | b :: rest => some (if flag.contains same then (b.toNat : ℤ) else -(b.toNat : ℤ), rest)
  else if flag.contains same then some (0, bytes)
  else readSigned? bytes

theorem readCoordinates?_cons (flag : PointFlags) (value : ℤ) (bytes : List UInt8) :
    readCoordinates? short same value (flag :: flags) bytes =
      (readStep? short same flag bytes).bind fun (step, rest) =>
        (readCoordinates? short same (value + step) flags rest).bind fun (values, rest) =>
          some ((value + step) :: values, rest) := by
  rw [Record.readCoordinates?.eq_def, readStep?.eq_def]
  dsimp only
  split_ifs
  · cases bytes <;> rfl
  · cases bytes <;> rfl
  · rfl
  · rfl

theorem Steps.of_readStep? {flag : PointFlags} {bytes rest field : List UInt8} {step : ℤ}
    (h : readStep? short same flag bytes = some (step, field ++ rest))
    (hsteps : Steps short same flags steps field) :
    ∃ field', bytes = field' ++ rest ∧ Steps short same (flag :: flags) (step :: steps) field' := by
  unfold readStep? at h
  by_cases hshort : flag.contains short
  · rw [if_pos hshort] at h
    rcases bytes with _ | ⟨b, bytes⟩
    · cases h
    · cases h
      exact ⟨b :: field, rfl, .short b hshort hsteps⟩
  · rw [if_neg hshort] at h
    rw [Bool.not_eq_true] at hshort
    by_cases hsame : flag.contains same
    · rw [if_pos hsame] at h
      cases h
      exact ⟨field, rfl, .same hshort hsame hsteps⟩
    · rw [if_neg hsame] at h
      rw [Bool.not_eq_true] at hsame
      obtain ⟨b1, b2, rfl, rfl⟩ := readSigned?_eq_some h
      exact ⟨b1 :: b2 :: field, rfl, .long b1 b2 hshort hsame hsteps⟩

theorem readCoordinates?_eq_some {value : ℤ} {bytes rest : List UInt8} {values : List ℤ}
    (h : readCoordinates? short same value flags bytes = some (values, rest)) :
    ∃ steps field, bytes = field ++ rest ∧ Steps short same flags steps field ∧
      values = sums value steps := by
  induction flags generalizing value bytes values with
  | nil =>
    cases h
    exact ⟨[], [], rfl, .nil, rfl⟩
  | cons flag flags ih =>
    rw [readCoordinates?_cons] at h
    obtain ⟨⟨step, bytes'⟩, hstep, h⟩ := Option.bind_eq_some_iff.mp h
    obtain ⟨⟨values', rest'⟩, hread, h⟩ := Option.bind_eq_some_iff.mp h
    cases h
    obtain ⟨steps, field, rfl, hsteps, rfl⟩ := ih hread
    obtain ⟨field', rfl, hsteps'⟩ := Steps.of_readStep? hstep hsteps
    exact ⟨step :: steps, field', rfl, hsteps', rfl⟩

-- ---------------------------------------------------------------------------
-- Headers
-- ---------------------------------------------------------------------------

section Header

variable {α : Type} [Scalar α]

def IsWord (n : ℤ) : Prop := -0x8000 ≤ n ∧ n < 0x8000

instance (n : ℤ) : Decidable (IsWord n) := inferInstanceAs (Decidable (_ ∧ _))

theorem IsWord.abs_lt_two_pow {n : ℤ} (h : IsWord n) : |n| < 2 ^ 53 := by
  obtain ⟨hlow, hhigh⟩ := h
  exact abs_lt.mpr ⟨by omega, by omega⟩

theorem readSigned?_encode {n : ℤ} (h : IsWord n) (rest : List UInt8) :
    readSigned? (BigEndian.encode 2 n ++ rest) = some (n, rest) := by
  obtain ⟨hlow, hhigh⟩ := h
  have htake := take?_append (BigEndian.encode 2 n) rest
  rw [BigEndian.length_encode] at htake
  have hn := BigEndian.signed_encode 2 (n := n) (by omega) (by omega)
  simp only [readSigned?, htake, Option.bind_eq_bind, Option.bind_some, hn]
  rfl

theorem encode_of_readSigned? {bytes rest : List UInt8} {n : ℤ}
    (h : readSigned? bytes = some (n, rest)) :
    bytes = BigEndian.encode 2 n ++ rest ∧ IsWord n := by
  obtain ⟨b1, b2, rfl, rfl⟩ := readSigned?_eq_some h
  have hfield := BigEndian.encode_signed [b1, b2]
  rw [List.length_cons, List.length_singleton] at hfield
  exact ⟨by rw [hfield]; rfl, signed_bounds b1 b2⟩

/-- The header of a record: the number of contours, then the bounds. -/
def headerBytes (contours left lower right upper : ℤ) : List UInt8 :=
  BigEndian.encode 2 contours ++ (BigEndian.encode 2 left ++ (BigEndian.encode 2 lower ++
    (BigEndian.encode 2 right ++ BigEndian.encode 2 upper)))

theorem signed_take_headerBytes {contours left lower right upper : ℤ} (h : IsWord contours)
    (rest : List UInt8) :
    BigEndian.signed ((headerBytes contours left lower right upper ++ rest).take 2) = contours := by
  rw [headerBytes, List.append_assoc, List.take_append_of_le_length (by simp),
    List.take_of_length_le (by simp), BigEndian.signed_encode 2 (by have := h.1; omega)
    (by have := h.2; omega)]

/-- The glyph with the bounds of a header and nothing else. -/
def headerGlyph (left lower right upper : ℤ) : Glyph α :=
  let bounds : Rect α :=
    ⟨Scalar.ofInt left, Scalar.ofInt lower, Scalar.ofInt right, Scalar.ofInt upper⟩
  { Glyph.empty .truetype with bounds, bearing := bounds.x0 }

theorem readHeader?_headerBytes {contours left lower right upper : ℤ} (hcontours : IsWord contours)
    (hleft : IsWord left) (hlower : IsWord lower) (hright : IsWord right) (hupper : IsWord upper)
    (rest : List UInt8) :
    readHeader? (headerBytes contours left lower right upper ++ rest) =
      some (contours, (headerGlyph left lower right upper : Glyph α), rest) := by
  simp only [headerBytes, List.append_assoc, readHeader?, readSigned?_encode, hcontours, hleft,
    hlower, hright, hupper, Option.bind_eq_bind, Option.bind_some]
  rfl

theorem readHeader?_eq_some {bytes rest : List UInt8} {contours : ℤ} {g : Glyph α}
    (h : readHeader? bytes = some (contours, g, rest)) :
    ∃ left lower right upper, bytes = headerBytes contours left lower right upper ++ rest ∧
      IsWord contours ∧ IsWord left ∧ IsWord lower ∧ IsWord right ∧ IsWord upper ∧
      g = headerGlyph left lower right upper := by
  obtain ⟨⟨n, rest1⟩, h0, h⟩ := Option.bind_eq_some_iff.mp h
  obtain ⟨⟨left, rest2⟩, h1, h⟩ := Option.bind_eq_some_iff.mp h
  obtain ⟨⟨lower, rest3⟩, h2, h⟩ := Option.bind_eq_some_iff.mp h
  obtain ⟨⟨right, rest4⟩, h3, h⟩ := Option.bind_eq_some_iff.mp h
  obtain ⟨⟨upper, rest5⟩, h4, h⟩ := Option.bind_eq_some_iff.mp h
  cases h
  obtain ⟨rfl, hw0⟩ := encode_of_readSigned? h0
  obtain ⟨rfl, hw1⟩ := encode_of_readSigned? h1
  obtain ⟨rfl, hw2⟩ := encode_of_readSigned? h2
  obtain ⟨rfl, hw3⟩ := encode_of_readSigned? h3
  obtain ⟨rfl, hw4⟩ := encode_of_readSigned? h4
  refine ⟨left, lower, right, upper, ?_, hw0, hw1, hw2, hw3, hw4, rfl⟩
  simp only [headerBytes, List.append_assoc]

end Header

-- ---------------------------------------------------------------------------
-- Records
-- ---------------------------------------------------------------------------

end Letterform.Record

namespace Letterform

/-- What a simple record says: its bounds, the numbers of the last points of its contours, its
instructions, the flags of its points and the steps to them along both axes. -/
structure RecordLayout where
  left : ℤ
  lower : ℤ
  right : ℤ
  upper : ℤ
  ends : List ℕ
  instructions : List UInt8
  flags : List PointFlags
  xSteps : List ℤ
  ySteps : List ℤ

namespace RecordLayout

open Record

/-- The bytes of a record with its flags and steps in some form. -/
def bytes (r : RecordLayout) (flagBytes xBytes yBytes : List UInt8) : List UInt8 :=
  headerBytes r.ends.length r.left r.lower r.right r.upper ++ (endBytes r.ends ++
    (BigEndian.encode 2 r.instructions.length ++ r.instructions ++
      (flagBytes ++ (xBytes ++ yBytes))))

/-- Everything in a record fits in its place, and these bytes stand for its flags and its steps. The
last count of flags may go too far. -/
structure Fits (r : RecordLayout) (excess : Bool) (flagBytes xBytes yBytes : List UInt8) :
    Prop where
  contours : r.ends.length < 0x8000
  left : IsWord r.left
  lower : IsWord r.lower
  right : IsWord r.right
  upper : IsWord r.upper
  ends : AreEnds 0 r.ends
  instructions : r.instructions.length ≤ 0xffff
  flags : FlagRuns (pointCount r.ends) flagBytes r.flags excess
  xSteps : Steps .xShort .xSame r.flags r.xSteps xBytes
  ySteps : Steps .yShort .ySame r.flags r.ySteps yBytes

def Describes (r : RecordLayout) (excess : Bool) (bytes : List UInt8) : Prop :=
  ∃ flagBytes xBytes yBytes rest, r.Fits excess flagBytes xBytes yBytes ∧
    bytes = r.bytes flagBytes xBytes yBytes ++ rest

def overlaps (r : RecordLayout) : Bool :=
  match r.flags with
  | flag :: _ => flag.contains PointFlags.overlap
  | [] => false

variable {α : Type} [Scalar α]

def figure (r : RecordLayout) : Figure α :=
  Record.figure r.flags (sums 0 r.xSteps) (sums 0 r.ySteps) r.ends

def glyph (r : RecordLayout) : Glyph α :=
  { headerGlyph r.left r.lower r.right r.upper with
    instructions := r.instructions
    overlaps := r.overlaps
    figures := if (r.figure : Figure α).isEmpty then [] else [r.figure] }

variable {r : RecordLayout} {excess : Bool} {data : List UInt8}

theorem decode_of_describes (h : r.Describes excess data) :
    (decode data : Decoded Error α) =
      ⟨r.glyph, if excess then [.repeatCountTooLarge] else []⟩ := by
  obtain ⟨flagBytes, xBytes, yBytes, rest, h, rfl⟩ := h
  have hcontours : IsWord r.ends.length := ⟨by omega, by have := h.contours; omega⟩
  have hne : (r.bytes flagBytes xBytes yBytes ++ rest).isEmpty = false := by
    simp [bytes, headerBytes, BigEndian.encode_succ]
  unfold decode
  rw [hne, if_neg Bool.false_ne_true]
  simp only [bytes, List.append_assoc]
  rw [← List.append_assoc _ _ (flagBytes ++ _),
    readHeader?_headerBytes (α := α) hcontours h.left h.lower h.right h.upper]
  dsimp only
  rw [if_pos (by omega), Int.toNat_natCast, decodeSimple, readEnds_endBytes h.ends]
  dsimp only
  rw [readInstructions?_encode h.instructions]
  dsimp only
  have hflags := h.flags.readFlags? (xBytes ++ (yBytes ++ rest))
  have hx := h.xSteps.readCoordinates? 0 (yBytes ++ rest)
  have hy := h.ySteps.readCoordinates? 0 rest
  erw [hflags]
  simp only [hx, hy, Option.bind_eq_bind, Option.bind_some]
  rfl

theorem parts_of_decodeSimple {g : Glyph α} {contours : ℕ}
    (h : ∀ e ∈ (decodeSimple g contours data).diagnostics, e = .repeatCountTooLarge) :
    ∃ ends instructions flags xSteps ySteps excess flagBytes xBytes yBytes rest,
      data = endBytes ends ++ (BigEndian.encode 2 instructions.length ++ instructions ++
        (flagBytes ++ (xBytes ++ (yBytes ++ rest)))) ∧
      ends.length = contours ∧ AreEnds 0 ends ∧ instructions.length ≤ 0xffff ∧
      FlagRuns (pointCount ends) flagBytes flags excess ∧
      Steps .xShort .xSame flags xSteps xBytes ∧ Steps .yShort .ySame flags ySteps yBytes := by
  unfold decodeSimple at h
  rcases hends : readEnds 0 0 contours data with e | ⟨ends, data1⟩
  · rw [hends] at h
    exact (readEnds_error hends (h e (List.mem_singleton_self e))).elim
  rw [hends] at h
  obtain ⟨rfl, hlength, hareEnds⟩ := readEnds_eq_ok hends
  dsimp only at h
  rcases hread : readInstructions? data1 with _ | ⟨instructions, data2⟩
  · rw [hread] at h
    exact nomatch h _ (List.mem_singleton_self Error.outOfBounds)
  rw [hread] at h
  obtain ⟨rfl, hinstructions⟩ := readInstructions?_eq_some hread
  dsimp only at h
  rcases hflags : readFlags? (pointCount ends) data2 with _ | ⟨flags, excess, data3⟩
  · erw [hflags] at h
    exact nomatch h _ (List.mem_singleton_self Error.outOfBounds)
  erw [hflags] at h
  obtain ⟨flagBytes, rfl, hruns⟩ := readFlags?_eq_some hflags
  dsimp only at h
  rcases hxs : readCoordinates? .xShort .xSame 0 flags data3 with _ | ⟨xs, data4⟩
  · rw [hxs] at h
    exact nomatch h _ (List.mem_append_right _ (List.mem_singleton_self Error.outOfBounds))
  obtain ⟨xSteps, xBytes, rfl, hx, rfl⟩ := readCoordinates?_eq_some hxs
  rcases hys : readCoordinates? .yShort .ySame 0 flags data4 with _ | ⟨ys, data5⟩
  · simp only [hxs, hys, Option.bind_eq_bind, Option.bind_some, Option.bind_none] at h
    exact nomatch h _ (List.mem_append_right _ (List.mem_singleton_self Error.outOfBounds))
  obtain ⟨ySteps, yBytes, rfl, hy, rfl⟩ := readCoordinates?_eq_some hys
  exact ⟨ends, instructions, flags, xSteps, ySteps, excess, flagBytes, xBytes, yBytes, data5, rfl,
    hlength, hareEnds, hinstructions, hruns, hx, hy⟩

/-- Everything that is decoded without a problem, or at most a count of flags that goes too far,
begins with a record. -/
theorem describes_of_decode (hne : data ≠ []) (hcontours : 0 ≤ BigEndian.signed (data.take 2))
    (h : ∀ e ∈ (decode data : Decoded Error α).diagnostics, e = .repeatCountTooLarge) :
    ∃ (r : RecordLayout) (excess : Bool), r.Describes excess data := by
  unfold decode at h
  rw [List.isEmpty_eq_false_iff.mpr hne, if_neg Bool.false_ne_true] at h
  rcases hheader : (readHeader? data : Option (ℤ × Glyph α × List UInt8)) with
    _ | ⟨contours, g, data'⟩
  · rw [hheader] at h
    exact nomatch h _ (List.mem_singleton_self Error.outOfBounds)
  rw [hheader] at h
  obtain ⟨left, lower, right, upper, rfl, hw0, hw1, hw2, hw3, hw4, rfl⟩ :=
    readHeader?_eq_some hheader
  rw [signed_take_headerBytes hw0] at hcontours
  dsimp only at h
  rw [if_pos hcontours] at h
  obtain ⟨ends, instructions, flags, xSteps, ySteps, excess, flagBytes, xBytes, yBytes, rest,
    rfl, hlength, hends, hinstructions, hflags, hx, hy⟩ := parts_of_decodeSimple h
  obtain rfl : contours = ends.length := by omega
  have hcount : ends.length < 0x8000 := by
    have := hw0.2
    omega
  exact ⟨⟨left, lower, right, upper, ends, instructions, flags, xSteps, ySteps⟩, excess, flagBytes,
    xBytes, yBytes, rest, ⟨hcount, hw1, hw2, hw3, hw4, hends, hinstructions, hflags, hx, hy⟩,
    by simp only [bytes, List.append_assoc]⟩

theorem figures_decodeSimple (g : Glyph α) (contours : ℕ) (data : List UInt8) :
    (decodeSimple g contours data).glyph.figures = g.figures ∨
      ∀ e ∈ (decodeSimple g contours data).diagnostics, e = .repeatCountTooLarge := by
  unfold decodeSimple
  split
  · exact .inl rfl
  split
  · exact .inl rfl
  dsimp only
  split
  · exact .inl rfl
  split
  · exact .inl rfl
  · refine .inr fun e he => ?_
    dsimp only at he
    split at he
    · exact List.mem_singleton.mp he
    · cases he

theorem figures_decodeComposite (g : Glyph α) (data : List UInt8) :
    (decodeComposite g data).glyph.figures = g.figures := by
  unfold decodeComposite
  split
  split
  · rfl
  · split_ifs
    · split <;> rfl
    · rfl

theorem describes_of_figures (h : (decode data : Decoded Error α).glyph.figures ≠ []) :
    ∃ (r : RecordLayout) (excess : Bool), r.Describes excess data := by
  have hne : data ≠ [] := by
    rintro rfl
    exact h rfl
  rcases hheader : (readHeader? data : Option (ℤ × Glyph α × List UInt8)) with
    _ | ⟨contours, g, data'⟩
  · simp [decode, hne, hheader, Glyph.empty] at h
  obtain ⟨left, lower, right, upper, rfl, hword, -, -, -, -, rfl⟩ := readHeader?_eq_some hheader
  have hdecode : (decode (headerBytes contours left lower right upper ++ data') :
      Decoded Error α) = if 0 ≤ contours
        then decodeSimple (headerGlyph left lower right upper) contours.toNat data'
        else decodeComposite (headerGlyph left lower right upper) data' := by
    simp only [decode, hheader, List.isEmpty_eq_false_iff.mpr hne, Bool.false_eq_true, if_false]
  by_cases hcontours : 0 ≤ contours
  · rw [if_pos hcontours] at hdecode
    refine describes_of_decode (α := α) hne (by rwa [signed_take_headerBytes hword]) ?_
    rw [hdecode] at h ⊢
    exact (figures_decodeSimple _ _ _).resolve_left h
  · rw [hdecode, if_neg hcontours, figures_decodeComposite] at h
    exact absurd rfl h

end RecordLayout

end Letterform
