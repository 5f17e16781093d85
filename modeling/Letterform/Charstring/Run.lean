import Letterform.Charstring.Path
import Letterform.Charstring.Version
import Letterform.Geometry.Basic
import Letterform.Hint.Mask

/-!
# Choosing path operators

The segments of a contour are written in runs. A run is as long as one operator can draw: lines
along the axes in turn, sloping lines, curves that are level at both ends, curves that turn from
one axis to the other, or curves of any kind. A pair of shallow curves becomes a flex.

Each step of a run adds a group of operands. The groups of a run fit on the stack.
-/

namespace Letterform.Charstring

variable {α : Type} [Scalar α]

structure EncodeOptions (α : Type) where
  flex : Bool := true
  /-- How far, in font units, the joint of a flex may lie off the line between its ends. -/
  maxFlexDepth : α
  /-- The depth operand of a general flex, in hundredths of a pixel. -/
  flexDepthOperand : α

namespace EncodeOptions

instance : Inhabited (EncodeOptions α) := ⟨{ maxFlexDepth := 20, flexDepthOperand := 50 }⟩

end EncodeOptions

structure Leg (α : Type) where
  start : Point α
  controls : Option (Point α × Point α)
  stop : Point α
  /-- The stems that become active where the leg ends. -/
  mask : Option HintMask := none
  deriving BEq, DecidableEq, Repr

namespace Leg

def step (l : Leg α) : PathStep α :=
  match l.controls with
  | none => .line (l.stop.x - l.start.x) (l.stop.y - l.start.y)
  | some (c1, c2) =>
    .curve (c1.x - l.start.x) (c1.y - l.start.y) (c2.x - c1.x) (c2.y - c1.y) (l.stop.x - c2.x)
      (l.stop.y - c2.y)

end Leg

/-- A path operator with its operands, grouped by the steps that they draw. -/
structure Command (α : Type) where
  op : PathOperator
  groups : List (List α)
  deriving BEq, DecidableEq, Repr

namespace Command

def operands (c : Command α) : List α := c.groups.flatten

def count (c : Command α) : Nat := c.groups.length

/-- A command for one step, with the operators that every dialect has. -/
def ofStep : PathStep α → Command α
  | .line dx dy =>
    if dy == 0 then ⟨.hlineto, [[dx]]⟩
    else if dx == 0 then ⟨.vlineto, [[dy]]⟩
    else ⟨.rlineto, [[dx, dy]]⟩
  | .curve dx1 dy1 dx2 dy2 dx3 dy3 =>
    if dy1 == 0 && dx3 == 0 then ⟨.hvcurveto, [[dx1, dx2, dy2, dy3]]⟩
    else if dx1 == 0 && dy3 == 0 then ⟨.vhcurveto, [[dy1, dx2, dy2, dx3]]⟩
    else ⟨.rrcurveto, [[dx1, dy1, dx2, dy2, dx3, dy3]]⟩

/-! ## Lines -/

/-- Lines along the axes in turn, as long as there is room for operands. -/
def alternatingGroups (horizontal : Bool) : (room : Nat) → List (PathStep α) → List (List α)
  | room + 1, .line dx dy :: rest =>
    if horizontal then
      if dy == 0 then [dx] :: alternatingGroups false room rest else []
    else if dx == 0 then [dy] :: alternatingGroups true room rest
    else []
  | _, _ => []

def slopingGroups (limit used : Nat) : List (PathStep α) → List (List α)
  | .line dx dy :: rest =>
    if dx == 0 || dy == 0 || limit < used + 2 then []
    else [dx, dy] :: slopingGroups limit (used + 2) rest
  | _ => []

def ofLines (limit : Nat) (dx dy : α) (steps : List (PathStep α)) : Command α :=
  if dy == 0 then ⟨.hlineto, alternatingGroups true limit steps⟩
  else if dx == 0 then ⟨.vlineto, alternatingGroups false limit steps⟩
  else
    let groups := slopingGroups limit 0 steps
    match steps.drop groups.length with
    | .curve dx1 dy1 dx2 dy2 dx3 dy3 :: _ =>
      if 2 * groups.length + 6 ≤ limit then
        ⟨.rlinecurve, groups ++ [[dx1, dy1, dx2, dy2, dx3, dy3]]⟩
      else ⟨.rlineto, groups⟩
    | _ => ⟨.rlineto, groups⟩

/-! ## Curves -/

def startsHorizontal (dx1 dy1 dy3 : α) : Bool := dy3 == 0 && (dy1 == 0 || !(dx1 == 0))

def startsVertical (dx1 dy1 dx3 : α) : Bool := dx3 == 0 && (dx1 == 0 || !(dy1 == 0))

/-- Curves that are level at both ends; the first one may begin off the axis. -/
def levelGroups (limit : Nat) (horizontal : Bool) (used : Nat) :
    List (PathStep α) → List (List α)
  | .curve dx1 dy1 dx2 dy2 dx3 dy3 :: rest =>
    let (lead, off, tail, cross) :=
      if horizontal then (dx1, dy1, dx3, dy3) else (dy1, dx1, dy3, dx3)
    if limit < used + 5 then []
    else if used = 0 ∧ !(off == 0) then
      [off, lead, dx2, dy2, tail] :: levelGroups limit horizontal (used + 5) rest
    else if off == 0 && cross == 0 then
      [lead, dx2, dy2, tail] :: levelGroups limit horizontal (used + 4) rest
    else []
  | _ => []

/-- Curves that turn from one axis to the other; the last one may end off the axis. -/
def turningGroups (limit : Nat) (horizontal : Bool) (used : Nat) :
    List (PathStep α) → List (List α)
  | .curve dx1 dy1 dx2 dy2 dx3 dy3 :: rest =>
    let (lead, off, tail, cross) :=
      if horizontal then (dx1, dy1, dy3, dx3) else (dy1, dx1, dx3, dy3)
    if limit < used + 5 ∨ !(off == 0) then []
    else if cross == 0 then
      [lead, dx2, dy2, tail] :: turningGroups limit (!horizontal) (used + 4) rest
    else [[lead, dx2, dy2, tail, cross]]
  | _ => []

/-- Curves that no shorter operator can start with. -/
def generalGroups (limit used : Nat) : List (PathStep α) → List (List α)
  | .curve dx1 dy1 dx2 dy2 dx3 dy3 :: rest =>
    if startsHorizontal dx1 dy1 dy3 || startsVertical dx1 dy1 dx3 || dx1 == 0 || dy1 == 0 ||
        limit < used + 6 then []
    else [dx1, dy1, dx2, dy2, dx3, dy3] :: generalGroups limit (used + 6) rest
  | _ => []

def ofCurves (limit : Nat) (dx1 dy1 dx2 dy2 dx3 dy3 : α) (rest : List (PathStep α)) :
    Command α :=
  let steps := .curve dx1 dy1 dx2 dy2 dx3 dy3 :: rest
  if startsHorizontal dx1 dy1 dy3 then ⟨.hhcurveto, levelGroups limit true 0 steps⟩
  else if startsVertical dx1 dy1 dx3 then ⟨.vvcurveto, levelGroups limit false 0 steps⟩
  else if dy1 == 0 then ⟨.hvcurveto, turningGroups limit true 0 steps⟩
  else if dx1 == 0 then ⟨.vhcurveto, turningGroups limit false 0 steps⟩
  else
    let groups := [dx1, dy1, dx2, dy2, dx3, dy3] :: generalGroups limit 6 rest
    match steps.drop groups.length with
    | .line dx dy :: _ =>
      if 6 * groups.length + 2 ≤ limit then ⟨.rcurveline, groups ++ [[dx, dy]]⟩
      else ⟨.rrcurveto, groups⟩
    | _ => ⟨.rrcurveto, groups⟩

/-! ## Flexes -/

/-- The flex for two curves whose ends are level and whose joint lies close to the line between
them. -/
def ofFlex? (options : EncodeOptions α) : List (Leg α) → Option (Command α)
  | { start := s, controls := some (c1, c2), stop := p, .. } ::
      { controls := some (c3, c4), stop := e, .. } :: _ =>
    let isShallow (depth : α) : Bool := !decide (options.maxFlexDepth < Scalar.abs depth)
    let d1 := c1 - s
    let d2 := c2 - c1
    let d3 := p - c2
    let d4 := c3 - p
    let d5 := c4 - c3
    let d6 := e - c4
    if s == e then none
    else if s.y == e.y then
      if !(isShallow (p.y - s.y) && c2.y == p.y && c3.y == p.y) then none
      else if c1.y == s.y && c4.y == s.y then
        some ⟨.hflex, [[d1.x, d2.x, d2.y, d3.x], [d4.x, d5.x, d6.x]]⟩
      else
        some ⟨.hflex1, [[d1.x, d1.y, d2.x, d2.y, d3.x], [d4.x, d5.x, d5.y, d6.x]]⟩
    else if s.x == e.x then
      let first := [d1.x, d1.y, d2.x, d2.y, d3.x, d3.y]
      if !(isShallow (p.x - s.x) && c2.x == p.x && c3.x == p.x) then none
      else if Scalar.abs (c4.x - s.x) ≤ Scalar.abs (c4.y - s.y) then
        some ⟨.flex1, [first, [d4.x, d4.y, d5.x, d5.y, d6.y]]⟩
      else
        some ⟨.flex,
          [first, [d4.x, d4.y, d5.x, d5.y, d6.x, d6.y, options.flexDepthOperand]]⟩
    else none
  | _ => none

/-- The command for the longest run at the beginning of some legs, none of which but the first
brings a mask. -/
def choose (options : EncodeOptions α) (limit : Nat) (legs : List (Leg α)) : Option (Command α) :=
  match (if options.flex then ofFlex? options legs else none) with
  | some command => some command
  | none =>
    let steps := legs.map Leg.step
    match steps with
    | [] => none
    | .line dx dy :: _ => some (ofLines limit dx dy steps)
    | .curve dx1 dy1 dx2 dy2 dx3 dy3 :: rest =>
      some (ofCurves limit dx1 dy1 dx2 dy2 dx3 dy3 rest)

end Command

end Letterform.Charstring
