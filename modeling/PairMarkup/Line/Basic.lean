import PairMarkup.Diagnostic.Code
import PairMarkup.Glyph
import PairMarkup.Pair.Vocabulary

namespace PairMarkup

/-- A problem found while reading, not yet tied to a file. -/
structure Note where
  code : Code
  arguments : List String
  span : Span
  ofReading : code.IsOfReading := by decide
deriving DecidableEq

def Line.missingQuote (span : Span) : Note := .mk .missingClosingQuote ["quote"] span

/-- The mark before a name that says what kind of pair it is. -/
inductive Sigil where
  | none
  | document
  | aliasDefinition
  | namespaceDefinition
  | parameter
  | aliasUsage
  /-- An argument or a parameter, depending on where it stands. -/
  | percent
  | scope
  | attr
deriving DecidableEq

def Sigil.text : Sigil → String
  | none => ""
  | document => "!"
  | aliasDefinition => "!$"
  | namespaceDefinition => "!#"
  | parameter => "!%"
  | aliasUsage => "$"
  | percent => "%"
  | scope => "#"
  | attr => "@"

def Sigil.width : Sigil → Nat
  | none => 0
  | document | aliasUsage | percent | scope | attr => 1
  | aliasDefinition | namespaceDefinition | parameter => 2

structure Name where
  text : String
  /-- The quotes around the name, if it has any. -/
  quote : Option Char
  span : Span
deriving DecidableEq

/-- What a pair begins with: all up to its value or block. -/
structure Head where
  sigil : Sigil
  name : Option Name
  delimiter : Delimiter
  span : Span
deriving DecidableEq

/-- An alias usage or a parameter inside of a value, with nothing behind its name. -/
structure Reference where
  isUsage : Bool
  name : Option Name
  span : Span
deriving DecidableEq

def Reference.head (found : Reference) : Head :=
  ⟨if found.isUsage then .aliasUsage else .percent, found.name, .none, found.span⟩

/-- A part of a quoted text that has references in it. -/
inductive Segment where
  | text (content : String) (span : Span)
  | reference (found : Reference)
deriving DecidableEq

/-- A value as it is written. -/
inductive Value where
  | text (content : String) (kind : ValueKind)
  /-- A text without quotes, whose kind depends on the format. -/
  | bare (content : String)
  | reference (found : Reference)
  | segments (parts : List Segment) (ne_nil : parts ≠ [])
deriving DecidableEq

structure Comment where
  text : String
  span : Span
  isClosed : Bool
deriving DecidableEq

/-- A comment that is not closed runs to the end of the text. -/
def Comment.notes (c : Comment) : List Note :=
  if c.isClosed then [] else [.mk .missingClosingQuote ["comment"] c.span]

/-- A pair on a line, with the value behind its delimiter. There is a value just where one is announced, and no
    group follows it. -/
@[ext] structure PairItem where
  head : Head
  value : Option Value
  /-- What was found while reading the value. -/
  notes : List Note
  /-- Where the pair ends. -/
  stop : Position
  /-- The pair has no delimiter and a group follows. -/
  opensGroup : Bool
  announced : value.isSome = head.delimiter.isValue
  grouped : opensGroup = true → value = none
  free : head.delimiter = .doubleEqual → ∃ content kind, value = some (.text content kind)
deriving DecidableEq

/-- What a line is made of. -/
inductive Item where
  | separator
  | openGroup
  | closeGroup
  | comment (comment : Comment)
  | pair (item : PairItem)
  | note (note : Note)
deriving DecidableEq

def Item.isPair : Item → Bool
  | pair _ => true
  | _ => false

/-- A line of a text. One that begins with comments and goes on is two. -/
inductive Line where
  /-- Comments that stand before everything else on their line belong to the
      open block at `depth`. -/
  | comments (depth : Nat) (comments : List Comment)
  /-- A line whose indentation is wrong is passed over. -/
  | rejected (note : Note)
  /-- A line of the open block at `depth`; `lead` reaches from the margin to the
      first item. -/
  | content (depth : Nat) (lead : Span) (items : List Item)
deriving DecidableEq

/-- Something read, the problems found in it, and the text behind it. -/
structure Read (α : Type) where
  value : α
  notes : List Note
  rest : List Glyph

end PairMarkup
