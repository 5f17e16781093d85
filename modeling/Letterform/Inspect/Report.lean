import Letterform.Inspect.Hex
import Letterform.Number.Decimal
import Letterform.Number.Double
import Letterform.Outline.Draw

/-!
# The report on a glyph

A report lists what a glyph holds, part by part. A part that is empty is left out.
-/

namespace Letterform.Inspect

abbrev Report := List String

namespace Report

def text (r : Report) : String := String.join (r.map (· ++ "\n"))

def part (heading : String) (lines : List String) : Report :=
  if lines.isEmpty then [] else heading :: lines.map ("  " ++ ·)

def brackets (numbers : List String) : String := "[" ++ " ".intercalate numbers ++ "]"

def doubles (numbers : List Float) : String := brackets (numbers.map Decimal.ofDouble)

def byteLines (bytes : List UInt8) : List String :=
  match _h : bytes with
  | [] => []
  | _ :: _ => Hex.line (bytes.take 16) :: byteLines (bytes.drop 16)
termination_by bytes.length
decreasing_by simp only [_h, List.length_drop, List.length_cons]; omega

end Report

namespace PenCommand

def pointText (p : Point Float) : String := Decimal.ofSingle p.x ++ "," ++ Decimal.ofSingle p.y

def text (command : PenCommand Float) : String :=
  let points (points : List (Point Float)) := " ".intercalate (points.map pointText)
  match command with
  | .moveTo p => "M" ++ points [p]
  | .lineTo p => "L" ++ points [p]
  | .quadTo c p => "Q" ++ points [c, p]
  | .curveTo c1 c2 p => "C" ++ points [c1, c2, p]
  | .close => "Z"

end PenCommand

namespace Report

def targetText : Target → String
  | .glyph id => "glyph " ++ ReferenceError.glyphName id
  | .code code => s!"standard code {code}"

def flagsText (f : ComponentFlags) : String :=
  let entry (name : String) (value : Bool) : String := name ++ ": " ++ toString value
  "ComponentFlags \x7b " ++
    ", ".intercalate
      [entry "round_xy_to_grid" f.roundXYToGrid, entry "use_my_metrics" f.useMyMetrics,
        entry "overlap_compound" f.overlapCompound,
        entry "scaled_component_offset" f.scaledComponentOffset,
        entry "unscaled_component_offset" f.unscaledComponentOffset] ++
    " \x7d"

def componentText (c : Component Float) : String :=
  let t := c.transform
  let placement :=
    match c.pointMatch with
    | some m => s!" matching {m.component} to {m.base}"
    | none => ""
  targetText c.target ++ " " ++ doubles [t.xx, t.yx, t.xy, t.yy, t.dx, t.dy] ++ placement ++ " " ++
    flagsText c.flags

def stemText (name : String) (s : Stem Float) : String :=
  s!"{name} #{s.number} " ++ Decimal.ofDouble s.start ++ " " ++ Decimal.ofDouble s.width

def formatName : OutlineFormat → String
  | .truetype => "TrueType"
  | .postscript => "PostScript"

def metricsText (g : Glyph Float) : String :=
  let b := g.bounds
  "advance " ++ Decimal.ofDouble g.advanceWidth ++ "  lsb " ++ Decimal.ofDouble g.bearing ++
    "  bbox " ++ doubles [b.x0, b.y0, b.x1, b.y1]

/-- The lines on hints; counter masks are left out if there are no stems. -/
def hintLines (g : Glyph Float) : List String :=
  if g.hints.isEmpty then []
  else
    g.hints.horizontal.map (stemText "hstem") ++ g.hints.vertical.map (stemText "vstem") ++
      g.counterMasks.map fun m => "counter " ++ brackets (m.toList.map toString)

def ofGlyph (g : Glyph Float) : Report :=
  part (formatName g.format ++ " glyph")
      (metricsText g :: if g.overlaps then ["overlapping contours"] else []) ++
    part "hints" (hintLines g) ++
    part "contours"
      (g.drawContours.map fun commands => " ".intercalate (commands.map PenCommand.text)) ++
    part "components" (g.components.map componentText) ++
    part s!"instructions ({g.instructions.length} bytes)" (byteLines g.instructions)

def errorLine (message : String) : String := "error: " ++ message

def ofEncoded (before : List UInt8) : Except String (List UInt8) → Report
  | .ok bytes =>
    let status := if bytes = before then "identical" else "changed"
    s!"re-encoded ({bytes.length} bytes, {status})" :: (byteLines bytes).map ("  " ++ ·)
  | .error message => [errorLine ("re-encoding failed: " ++ message)]

end Report

end Letterform.Inspect
