/-!
# Positions

A position is the line and the column at which a piece of a script was written. Line zero is
nowhere: it is the position of pieces that a host built itself.
-/

namespace Danmaku

/-- A line and a column, both counted from one. -/
structure Position where
  /-- The line; zero if the position is unknown. -/
  line : Nat := 0
  /-- The column. -/
  column : Nat := 0
  deriving DecidableEq, Inhabited, Repr

namespace Position

/-- The position of what was written nowhere. -/
def nowhere : Position := {}

/-- Whether the position is unknown, whatever its column. -/
def isUnknown (p : Position) : Bool := p.line == 0

/-- Line and column, known or not. -/
def coordinates (p : Position) : String := s!"{p.line}:{p.column}"

/-- The text of a position in a message. -/
def text (p : Position) : String := if p.isUnknown then "<unknown>" else p.coordinates

end Position

end Danmaku
