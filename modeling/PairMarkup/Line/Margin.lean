import PairMarkup.Line.Basic

namespace PairMarkup.Line

open Glyph

/-- What one step of indentation is made of. -/
structure IndentUnit where
  isTab : Bool
  width : Nat
deriving DecidableEq

/-- The blanks that a line begins with. -/
structure Indent where
  width : Nat
  hasSpaces : Bool
  hasTabs : Bool
deriving DecidableEq

def Indent.of (gs : List Glyph) : Indent :=
  let blanks := gs.takeWhile Glyph.isBlank
  ⟨blanks.length, blanks.any (·.char == ' '), blanks.any (·.char == '\t')⟩

/-- What is known of the indentation before a line is read. -/
structure Layout where
  /-- The unit is that of the first line that is indented. -/
  unit : Option IndentUnit
  /-- How many blocks are open below the module. -/
  openBlocks : Nat
deriving DecidableEq

namespace Layout

def initial : Layout := ⟨none, 0⟩

/-- The open block that comments with this indentation are put into. Comments
    need not keep to the indent unit. -/
def commentDepth (layout : Layout) (width : Nat) : Nat :=
  let depth :=
    match layout.unit with
    | some unit => width / unit.width
    | none => if 0 < width then 1 else 0
  min depth layout.openBlocks

/-- The depth of a line with this indentation, and the unit from then on, or
    what is wrong with it. -/
def measure (layout : Layout) (indent : Indent) (span : Span) : Except Note (Nat × Option IndentUnit) :=
  if indent.width = 0 then .ok (0, layout.unit)
  else if indent.hasSpaces && indent.hasTabs then .error (.mk .mixedIndentation [] span)
  else
    match layout.unit with
    | none =>
      if layout.openBlocks = 0 then .error (.mk .invalidIndentation [] span)
      else .ok (1, some ⟨indent.hasTabs, indent.width⟩)
    | some unit =>
      if unit.isTab != indent.hasTabs then .error (.mk .mixedIndentation [] span)
      else if indent.width % unit.width ≠ 0 then
        .error (.mk .invalidIndentMultiplicity [toString indent.width, toString unit.width] span)
      else if layout.openBlocks < indent.width / unit.width then
        .error (.mk .invalidIndentation [] span)
      else .ok (indent.width / unit.width, layout.unit)

end Layout

/-- The indentation that the further lines of a value are held against. -/
structure Margin where
  unit : Option IndentUnit
  /-- The width of the line that the value begins on. -/
  width : Nat
deriving DecidableEq

/-- What is wrong with the blanks that a further line of a value begins with. -/
def Margin.check (margin : Margin) (stop : Position) (gs : List Glyph) : List Note :=
  let indent := Indent.of gs
  let body := dropBlanks gs
  if indent.width = 0 || atLineEnd body then []
  else if (indent.hasSpaces && indent.hasTabs) || margin.unit.any fun unit => unit.isTab != indent.hasTabs then
    [.mk .mixedIndentation [] ⟨here stop gs, here stop body⟩]
  else []

end PairMarkup.Line
