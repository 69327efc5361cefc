import PairMarkup.Position

namespace PairMarkup

/-- A place inside a text, with the characters on both sides of it. -/
structure Cursor where
  /-- What lies behind, nearest first. -/
  before : List Char
  rest : List Char
  position : Position
deriving DecidableEq

namespace Cursor

variable (c : Cursor)

def ofList (text : List Char) : Cursor := ⟨[], text, .start⟩

/-- Takes one character and steps over it. A carriage return together with the
    line feed after it is one line feed. Nothing is taken at the end. -/
def consume? : Option (Char × Cursor) :=
  match c.rest with
  | '\r' :: '\n' :: rest =>
    some ('\n', ⟨'\n' :: '\r' :: c.before, rest, (c.position.after '\r').after '\n'⟩)
  | x :: rest => some (x, ⟨x :: c.before, rest, c.position.after x⟩)
  | [] => none

/-- Takes up to `n` characters; also says how many there were. -/
def skip : Nat → Cursor → Nat × Cursor
  | 0, c => (0, c)
  | n + 1, c =>
    match c.consume? with
    | some (_, next) =>
      let (count, last) := skip n next
      (count + 1, last)
    | none => (0, c)

/-- The character about to be taken. A carriage return shows as itself, also
    where it is taken together with a line feed. -/
def peek? : Option Char := c.rest.head?

/-- The character `i` places away: `1` is the one about to be taken, `-1` the
    one just behind, and there is none at `0`. -/
def lookAt? : Int → Option Char
  | .ofNat 0 => none
  | .ofNat (i + 1) => c.rest[i]?
  | .negSucc i => c.before[i]?

def isAtEnd : Bool := c.rest.isEmpty

def text : List Char := c.before.reverse ++ c.rest

/-- The part of the text from offset `start` up to offset `stop`. -/
def slice (start stop : Nat) : List Char := (c.text.take stop).drop start

/-- What is said when a character is asked for at the end. -/
def endOfInputMessage : String := "[PAIRC] Unexpected end of input at " ++ toString c.position.line ++ ":" ++
    toString c.position.column

end Cursor

end PairMarkup
