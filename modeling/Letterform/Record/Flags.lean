import Letterform.Component.Basic

/-!
# Flags in glyph records

A set of flags is packed into a word. Bits that mean nothing are dropped when a word is read and
never come back.
-/

namespace Letterform

abbrev FlagTable := List (String × Nat)

def FlagTable.word (table : FlagTable) : Nat := table.foldl (fun w (_, bit) => w ||| bit) 0

structure FlagSet (table : FlagTable) where
  word : Nat
  deriving DecidableEq, Repr

namespace FlagSet

variable {table : FlagTable}

def empty : FlagSet table := ⟨0⟩

def all : FlagSet table := ⟨table.word⟩

def ofWord (word : Nat) : FlagSet table := ⟨word &&& table.word⟩

def isEmpty (f : FlagSet table) : Bool := f.word == 0

def contains (f g : FlagSet table) : Bool := f.word &&& g.word == g.word

def union (f g : FlagSet table) : FlagSet table := ⟨f.word ||| g.word⟩

def inter (f g : FlagSet table) : FlagSet table := ⟨f.word &&& g.word⟩

def complement (f : FlagSet table) : FlagSet table := ⟨table.word ^^^ (table.word &&& f.word)⟩

def without (f g : FlagSet table) : FlagSet table := ⟨f.word ^^^ (f.word &&& g.word)⟩

def when (f : FlagSet table) (condition : Bool) : FlagSet table := if condition then f else empty

instance : OrOp (FlagSet table) := ⟨union⟩

instance : AndOp (FlagSet table) := ⟨inter⟩

def text (f : FlagSet table) : String :=
  match table.filter fun (_, bit) => f.contains ⟨bit⟩ with
  | [] => "(empty)"
  | entries => " | ".intercalate (entries.map Prod.fst)

end FlagSet

/-! ## Points of simple records -/

def pointFlagTable : FlagTable :=
  [("ON_CURVE_POINT", 0x01), ("X_SHORT_VECTOR", 0x02), ("Y_SHORT_VECTOR", 0x04),
    ("REPEAT_FLAG", 0x08), ("X_IS_SAME_OR_POSITIVE_X_SHORT_VECTOR", 0x10),
    ("Y_IS_SAME_OR_POSITIVE_Y_SHORT_VECTOR", 0x20), ("OVERLAP_SIMPLE", 0x40)]

abbrev PointFlags := FlagSet pointFlagTable

namespace PointFlags

def onCurve : PointFlags := ⟨0x01⟩

def xShort : PointFlags := ⟨0x02⟩

def yShort : PointFlags := ⟨0x04⟩

/-- A count of further points with the same flags follows. -/
def repeated : PointFlags := ⟨0x08⟩

/-- A short step along x is positive; a long one is left out because it is zero. -/
def xSame : PointFlags := ⟨0x10⟩

def ySame : PointFlags := ⟨0x20⟩

/-- The contours overlap. Only the flags of the first point say so. -/
def overlap : PointFlags := ⟨0x40⟩

end PointFlags

/-! ## Components of composite records -/

def layoutFlagTable : FlagTable :=
  [("ARG_1_AND_2_ARE_WORDS", 0x0001), ("ARGS_ARE_XY_VALUES", 0x0002),
    ("ROUND_XY_TO_GRID", 0x0004), ("WE_HAVE_A_SCALE", 0x0008), ("MORE_COMPONENTS", 0x0020),
    ("WE_HAVE_AN_X_AND_Y_SCALE", 0x0040), ("WE_HAVE_A_TWO_BY_TWO", 0x0080),
    ("WE_HAVE_INSTRUCTIONS", 0x0100), ("USE_MY_METRICS", 0x0200), ("OVERLAP_COMPOUND", 0x0400),
    ("SCALED_COMPONENT_OFFSET", 0x0800), ("UNSCALED_COMPONENT_OFFSET", 0x1000)]

abbrev LayoutFlags := FlagSet layoutFlagTable

namespace LayoutFlags

def argumentsAreWords : LayoutFlags := ⟨0x0001⟩

/-- The arguments are an offset; otherwise they are point numbers. -/
def argumentsAreOffset : LayoutFlags := ⟨0x0002⟩

def roundXYToGrid : LayoutFlags := ⟨0x0004⟩

def scale : LayoutFlags := ⟨0x0008⟩

def moreComponents : LayoutFlags := ⟨0x0020⟩

def twoScales : LayoutFlags := ⟨0x0040⟩

def twoByTwo : LayoutFlags := ⟨0x0080⟩

def instructions : LayoutFlags := ⟨0x0100⟩

def useMyMetrics : LayoutFlags := ⟨0x0200⟩

def overlapCompound : LayoutFlags := ⟨0x0400⟩

def scaledComponentOffset : LayoutFlags := ⟨0x0800⟩

def unscaledComponentOffset : LayoutFlags := ⟨0x1000⟩

def options (f : LayoutFlags) : ComponentFlags where
  roundXYToGrid := f.contains roundXYToGrid
  useMyMetrics := f.contains useMyMetrics
  overlapCompound := f.contains overlapCompound
  scaledComponentOffset := f.contains scaledComponentOffset
  unscaledComponentOffset := f.contains unscaledComponentOffset

def ofOptions (o : ComponentFlags) : LayoutFlags :=
  roundXYToGrid.when o.roundXYToGrid ||| useMyMetrics.when o.useMyMetrics |||
    overlapCompound.when o.overlapCompound |||
    scaledComponentOffset.when o.scaledComponentOffset |||
    unscaledComponentOffset.when o.unscaledComponentOffset

end LayoutFlags

end Letterform
