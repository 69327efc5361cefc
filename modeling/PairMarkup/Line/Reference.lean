import PairMarkup.Line.Basic
import PairMarkup.Text.Alphanumeric

namespace PairMarkup.Line

open Glyph

variable (stop : Position)

/-- The characters that the name of a reference inside of a value is made of. -/
def isReferenceChar (c : Char) : Bool := Text.isAlphanumeric c || c == '_' || c == '-' || c == '.'

/-- Whether a value that begins with `$` or `%` is a reference and nothing else.
    A closing parenthesis may follow it only inside of a group. -/
def referenceAhead (inGroup : Bool) : List Glyph → Bool
  | [] => false
  | g :: rest =>
    let after := rest.dropWhile fun g => isReferenceChar g.char
    if g.char = '$' && after.length = rest.length then false
    else
      match dropBlanks after with
      | [] => true
      | next :: more =>
        next.isLineBreak || next.char == ',' || (next.char == ')' && inGroup) || atComment (next :: more)

/-- The name of a reference goes on while its characters do. A dot is part of it
    only if more of the name follows. -/
def isReferenceEnd : List Char → Bool
  | [] => true
  | [c] => !isReferenceChar c || c == '.'
  | c :: next :: _ => !isReferenceChar c || (c == '.' && (next == '.' || !isReferenceChar next))

def endsReference (gs : List Glyph) : Bool := isReferenceEnd (raw 2 gs)

/-- The reference that begins here with `$` or `%`. -/
def readReference (gs : List Glyph) : Reference × List Glyph :=
  match gs with
  | [] => (⟨false, none, .point stop⟩, [])
  | g :: rest =>
    let (taken, after) := breakAt endsReference rest
    let name :=
      if taken.isEmpty then none
      else some ⟨String.ofList (chars taken), none, here stop rest, here stop after⟩
    (⟨g.char = '$', name, g.position, here stop after⟩, after)

theorem readReference_suffix (gs : List Glyph) : (readReference stop gs).2 <:+ gs := by
  unfold readReference
  split
  · exact List.suffix_refl _
  · next g rest => exact (breakAt_suffix _ rest).trans (List.suffix_cons g rest)

theorem length_readReference_lt (g : Glyph) (gs : List Glyph) :
    (readReference stop (g :: gs)).2.length < (g :: gs).length :=
  Nat.lt_succ_of_le (breakAt_suffix _ gs).length_le

end PairMarkup.Line
