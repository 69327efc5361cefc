namespace PairMarkup

/-- A place in a text. Lines and columns count from one, offsets from zero. -/
structure Position where
  line : Nat
  column : Nat
  offset : Nat
deriving DecidableEq, Inhabited

namespace Position

def start : Position := ⟨1, 1, 0⟩

/-- The place just after `c`. A line feed opens the next line; a carriage
    return takes an offset and no column. -/
def after (p : Position) (c : Char) : Position :=
  if c = '\n' then ⟨p.line + 1, 1, p.offset + 1⟩
  else if c = '\r' then ⟨p.line, p.column, p.offset + 1⟩
  else ⟨p.line, p.column + 1, p.offset + 1⟩

/-- Positions are ordered by line, then column, then offset. -/
def le (p q : Position) : Bool := p.line < q.line ||
    (p.line = q.line && (p.column < q.column || (p.column = q.column && p.offset ≤ q.offset)))

def min (p q : Position) : Position := if p.le q then p else q

def max (p q : Position) : Position := if p.le q then q else p

end Position

/-- The part of a text from `start` up to `stop`, the latter excluded. -/
structure Span where
  start : Position
  stop : Position
deriving DecidableEq, Inhabited

namespace Span

def point (p : Position) : Span := ⟨p, p⟩

def cover (a b : Span) : Span := ⟨a.start.min b.start, a.stop.max b.stop⟩

/-- The end does not come before the start, neither by offset nor by line and
    column. -/
def isWellFormed (s : Span) : Bool := s.start.offset ≤ s.stop.offset &&
    (s.start.line < s.stop.line || (s.start.line = s.stop.line && s.start.column ≤ s.stop.column))

end Span

end PairMarkup
