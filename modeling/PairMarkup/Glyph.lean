import PairMarkup.Cursor
import PairMarkup.Text.WhiteSpace

namespace PairMarkup

/-- A character of a text together with its place. A carriage return and the
    line feed after it are taken as one line feed. -/
@[ext]
structure Glyph where
  char : Char
  /-- The first character of what is written there, which is seen before it is taken. -/
  shown : Char
  position : Position
  shown_eq : shown = char ∨ Text.isLineBreak shown = true ∧ Text.isLineBreak char = true
deriving DecidableEq

namespace Glyph

variable (gs : List Glyph)

/-- A character that is written as it is taken. -/
def plain (c : Char) (p : Position) : Glyph := ⟨c, c, p, .inl rfl⟩

/-- A line feed with a carriage return before it. -/
def returned (p : Position) : Glyph := ⟨'\n', '\r', p, .inr ⟨rfl, rfl⟩⟩

@[simp] theorem plain_char (c : Char) (p : Position) : (plain c p).char = c := rfl

@[simp] theorem returned_char (p : Position) : (returned p).char = '\n' := rfl

def written (g : Glyph) : List Char :=
  if g.shown = '\r' && g.char = '\n' then ['\r', '\n'] else [g.shown]

/-- The next `n` characters as they are written, of which none is taken. -/
@[irreducible] def raw (n : Nat) (gs : List Glyph) : List Char := ((gs.take n).flatMap written).take n

@[simp] theorem raw_nil (n : Nat) : raw n [] = [] := by simp [raw]

def isBlank (g : Glyph) : Bool := Text.isBlank g.shown

def isLineBreak (g : Glyph) : Bool := Text.isLineBreak g.shown

/-- The characters of a text that begins at the given place. -/
def place : Position → List Char → List Glyph
  | p, '\r' :: '\n' :: rest => returned p :: place ((p.after '\r').after '\n') rest
  | p, c :: rest => plain c p :: place (p.after c) rest
  | _, [] => []

/-- The place behind a text that begins at the given place. -/
def placeAfter (p : Position) (text : List Char) : Position := text.foldl Position.after p

/-- Where the rest of a text begins, `stop` being where the text ends. -/
def here (stop : Position) : List Glyph → Position
  | [] => stop
  | g :: _ => g.position

def chars : List Char := gs.map (·.char)

def atLineEnd : List Glyph → Bool
  | [] => true
  | g :: _ => g.isLineBreak

/-- A comment begins with three quotes of one kind. -/
def isCommentMark : List Char → Bool
  | a :: b :: c :: _ => (a == '\'' || a == '"') && b == a && c == a
  | _ => false

def atComment : Bool := isCommentMark (raw 3 gs)

@[simp] theorem atComment_nil : atComment [] = false := by simp [atComment, isCommentMark]

def dropBlanks : List Glyph := gs.dropWhile isBlank

def dropLine : List Glyph := gs.dropWhile fun g => !g.isLineBreak

/-- Goes over the line break, if there is one here. -/
def dropLineBreak : List Glyph → List Glyph
  | [] => []
  | g :: gs => if g.isLineBreak then gs else g :: gs

/-- Splits a text at the first place where `stops` holds of what follows. -/
def breakAt (stops : List Glyph → Bool) : List Glyph → List Glyph × List Glyph
  | [] => ([], [])
  | g :: gs =>
    if stops (g :: gs) then ([], g :: gs)
    else
      let (taken, rest) := breakAt stops gs
      (g :: taken, rest)

theorem dropBlanks_suffix : dropBlanks gs <:+ gs := List.dropWhile_suffix _

theorem dropLine_suffix : dropLine gs <:+ gs := List.dropWhile_suffix _

theorem dropLineBreak_suffix : dropLineBreak gs <:+ gs := by
  cases gs with
  | nil => exact List.suffix_refl _
  | cons g gs =>
    simp only [dropLineBreak]
    split
    · exact List.suffix_cons g gs
    · exact List.suffix_refl _

theorem breakAt_append (stops : List Glyph → Bool) (gs : List Glyph) :
    (breakAt stops gs).1 ++ (breakAt stops gs).2 = gs := by
  induction gs with
  | nil => rfl
  | cons g gs ih =>
    simp only [breakAt]
    split
    · rfl
    · simp [ih]

theorem breakAt_suffix (stops : List Glyph → Bool) (gs : List Glyph) : (breakAt stops gs).2 <:+ gs :=
  ⟨_, breakAt_append stops gs⟩

end Glyph

namespace Cursor

/-- What is yet to be taken, with its places. -/
def ahead (c : Cursor) : List Glyph := Glyph.place c.position c.rest

/-- Where the text of the stream ends. -/
def stop (c : Cursor) : Position := Glyph.placeAfter c.position c.rest

end Cursor

end PairMarkup
