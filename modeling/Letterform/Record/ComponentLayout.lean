import Letterform.Number.BigEndian
import Letterform.Outline.EncodeError
import Letterform.Record.Flags

/-!
# Components in composite records

A component is written with its flags and glyph, two arguments, and as many of the four entries of
its transform as it needs. The flags tell how wide the arguments are and which entries follow.
-/

namespace Letterform

variable {α : Type} [Scalar α]

namespace LayoutFlags

def argumentLength (f : LayoutFlags) : Nat := if f.contains argumentsAreWords then 4 else 2

def entryLength (f : LayoutFlags) : Nat :=
  if f.contains scale then 2
  else if f.contains twoScales then 4
  else if f.contains twoByTwo then 8
  else 0

end LayoutFlags

namespace Component

/-- By how much the offset of a component is scaled along each axis if its flags ask for it. -/
def offsetScale (linear : Affine α) : α × α :=
  (Scalar.hypot linear.xx linear.xy, Scalar.hypot linear.yy linear.yx)

def entry (bytes : List UInt8) : α := Scalar.ofTwoDotFourteen (BigEndian.signed bytes)

def readLinear : List UInt8 → Affine α
  | [a, b] => ⟨entry [a, b], 0, 0, entry [a, b], 0, 0⟩
  | [a, b, c, d] => ⟨entry [a, b], 0, 0, entry [c, d], 0, 0⟩
  | [a, b, c, d, e, f, g, h] => ⟨entry [a, b], entry [c, d], entry [e, f], entry [g, h], 0, 0⟩
  | _ => Affine.identity

def ofLayout (flags : LayoutFlags) (id : GlyphId) (arguments entries : List UInt8) :
    Component α :=
  let half := flags.argumentLength / 2
  let first := arguments.take half
  let second := arguments.drop half
  let linear := readLinear entries
  let options := flags.options
  let c : Component α := { target := .glyph id, transform := linear, flags := options }
  if flags.contains LayoutFlags.argumentsAreOffset then
    let x : α := Scalar.ofInt (BigEndian.signed first)
    let y : α := Scalar.ofInt (BigEndian.signed second)
    if options.scalesOffset then
      let (sx, sy) := offsetScale linear
      c.withTranslation (x * sx) (y * sy)
    else c.withTranslation x y
  else
    let point (field : List UInt8) := UInt16.ofNat (BigEndian.unsigned field)
    { c with pointMatch := some { base := point first, component := point second } }

def entryWord (a : α) : Except (EncodeError α) Int :=
  if -2 ≤ a ∧ a < 2 then .ok (Scalar.toTwoDotFourteen a) else .error (.transformOutOfRange a)

def writtenEntries (xx yx xy yy : Int) : LayoutFlags × List Int :=
  let one := 0x4000
  if yx ≠ 0 ∨ xy ≠ 0 then (.twoByTwo, [xx, yx, xy, yy])
  else if xx = one ∧ yy = one then (.empty, [])
  else if xx = yy then (.scale, [xx])
  else (.twoScales, [xx, yy])

def offsetWord (a : α) : Except (EncodeError α) Int :=
  let n := Scalar.toInt32 (Scalar.roundUp a)
  if -0x8000 ≤ n ∧ n ≤ 0x7fff then .ok n else .error (.offsetOverflow a)

/-- The arguments in the narrowest form, with the flags that tell it. -/
def writtenArguments (c : Component α) : Except (EncodeError α) (LayoutFlags × List UInt8) := do
  match c.pointMatch with
  | some m =>
    if 0xff < m.base ∨ 0xff < m.component then
      return (.argumentsAreWords,
        BigEndian.encode 2 m.base.toNat ++ BigEndian.encode 2 m.component.toNat)
    else return (.empty, [m.base.toUInt8, m.component.toUInt8])
  | none =>
    let unscale (a scale : α) : α :=
      if c.flags.scalesOffset && !(scale == 0) then a / scale else a
    let (sx, sy) := offsetScale c.transform.linear
    let x ← offsetWord (unscale c.transform.dx sx)
    let y ← offsetWord (unscale c.transform.dy sy)
    if -0x80 ≤ x ∧ x ≤ 0x7f ∧ -0x80 ≤ y ∧ y ≤ 0x7f then
      return (.argumentsAreOffset, BigEndian.encode 1 x ++ BigEndian.encode 1 y)
    else
      return (.argumentsAreOffset ||| .argumentsAreWords,
        BigEndian.encode 2 x ++ BigEndian.encode 2 y)

def writtenId (c : Component α) : Except (EncodeError α) GlyphId :=
  match c.target with
  | .glyph id => .ok id
  | .code code => .error (.unresolvedReference code)

/-- Writes a component. The flags given are those that tell what follows it. -/
def toBytes (c : Component α) (following : LayoutFlags) :
    Except (EncodeError α) (List UInt8) := do
  let id ← c.writtenId
  let xx ← entryWord c.transform.xx
  let yx ← entryWord c.transform.yx
  let xy ← entryWord c.transform.xy
  let yy ← entryWord c.transform.yy
  let (entryFlags, entries) := writtenEntries xx yx xy yy
  let (argumentFlags, arguments) ← c.writtenArguments
  let flags := .ofOptions c.flags ||| following ||| entryFlags ||| argumentFlags
  return BigEndian.encode 2 flags.word ++ BigEndian.encode 2 id.toNat ++ arguments ++
    entries.flatMap (BigEndian.encode 2)

end Component

end Letterform
