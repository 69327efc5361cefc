namespace PairMarkup

/-- The number of a pair in its tree, in order of creation. Cut to 32 bits, numbers would begin
    again with the pair 2³²; here they never wrap, so that trees are taken to be smaller. -/
abbrev PairId := Nat

/-- What a module is written for. -/
inductive Format where
  | xml
  | json
deriving DecidableEq

def Format.name : Format → String
  | xml => "xml"
  | json => "json"

/-- The mark between the name of a pair and what belongs to it. -/
inductive Delimiter where
  | none
  | equal
  | doubleEqual
  | colon
  | doubleColon
  | colonEqual
  | equalColon
deriving DecidableEq

namespace Delimiter

def text : Delimiter → String
  | none => ""
  | equal => "="
  | doubleEqual => "=="
  | colon => ":"
  | doubleColon => "::"
  | colonEqual => ":="
  | equalColon => "=:"

def width : Delimiter → Nat
  | none => 0
  | equal | colon => 1
  | doubleEqual | doubleColon | colonEqual | equalColon => 2

def isBlock : Delimiter → Bool
  | colon | doubleColon | colonEqual | equalColon => true
  | none | equal | doubleEqual => false

def isValue : Delimiter → Bool
  | equal | doubleEqual => true
  | none | colon | doubleColon | colonEqual | equalColon => false

/-- The pairs of the block that follows are alternatives. -/
def isChoice : Delimiter → Bool
  | doubleColon | equalColon => true
  | none | equal | doubleEqual | colon | colonEqual => false

end Delimiter

/-- What the value of a pair is, and for a text how it was written. -/
inductive ValueKind where
  | none
  | empty
  | singleQuoted
  | doubleQuoted
  | openString
  | foldedOpenString
  /-- The value is that of the alias or parameter referred to. -/
  | pairValue
  | null
  | number
  | boolean
  | object
  | concatenation
  | literalChoice
deriving DecidableEq

namespace ValueKind

def name : ValueKind → String
  | none => "None"
  | empty => "Empty"
  | singleQuoted => "SingleQuoted"
  | doubleQuoted => "DoubleQuoted"
  | openString => "OpenString"
  | foldedOpenString => "FoldedOpenString"
  | pairValue => "PairValue"
  | null => "Null"
  | number => "Number"
  | boolean => "Boolean"
  | object => "Object"
  | concatenation => "Concatenation"
  | literalChoice => "LiteralChoice"

def isTextual : ValueKind → Bool
  | empty | singleQuoted | doubleQuoted | openString | foldedOpenString | concatenation => true
  | none | pairValue | null | number | boolean | object | literalChoice => false

end ValueKind

/-- Where a parameter stands: in place of a value, or as a pair of a block. -/
inductive Place where
  | value
  | block
deriving DecidableEq

end PairMarkup
