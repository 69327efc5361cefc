import PairMarkup.Text.Hex

namespace PairMarkup

/-- JSON data. Numbers are kept as they are written. -/
inductive Json where
  | null
  | bool (value : Bool)
  | number (literal : String)
  | string (text : String)
  | array (items : List Json)
  | object (fields : List (String × Json))
deriving Inhabited

namespace Json

def ofNat (n : Nat) : Json := .number (toString n)

def ofOption (text : Option String) : Json :=
  match text with
  | some text => .string text
  | none => .null

/-- How a character is written inside of a string. -/
def escape (c : Char) : List Char :=
  match c with
  | '"' => ['\\', '"']
  | '\\' => ['\\', '\\']
  | '\x08' => ['\\', 'b']
  | '\x0c' => ['\\', 'f']
  | '\n' => ['\\', 'n']
  | '\r' => ['\\', 'r']
  | '\t' => ['\\', 't']
  | _ =>
    if c.toNat < 0x20 then
      ['\\', 'u', '0', '0', Nat.digitChar (c.toNat / 16), Nat.digitChar (c.toNat % 16)]
    else [c]

/-- A text in quotes, before `rest`. -/
def quote (text : String) (rest : List Char) : List Char := '"' :: text.toList.flatMap escape ++ '"' :: rest

/-- Begins a line that is indented by `level` steps of two spaces. -/
def newLine (level : Nat) (rest : List Char) : List Char := '\n' :: List.replicate (2 * level) ' ' ++ rest

mutual

/-- Writes a value before `rest`, on a line that is indented by `level` steps. Every
    item and every field has a line of its own. -/
def print (level : Nat) (rest : List Char) : Json → List Char
  | null => 'n' :: 'u' :: 'l' :: 'l' :: rest
  | bool true => 't' :: 'r' :: 'u' :: 'e' :: rest
  | bool false => 'f' :: 'a' :: 'l' :: 's' :: 'e' :: rest
  | number literal => literal.toList ++ rest
  | string text => quote text rest
  | array [] => '[' :: ']' :: rest
  | array (item :: items) =>
    let others := printItems (level + 1) (newLine level (']' :: rest)) items
    '[' :: newLine (level + 1) (print (level + 1) others item)
  | object [] => '\x7b' :: '\x7d' :: rest
  | object ((key, value) :: fields) =>
    let others := printFields (level + 1) (newLine level ('\x7d' :: rest)) fields
    '\x7b' :: newLine (level + 1) (quote key (':' :: ' ' :: print (level + 1) others value))

def printItems (level : Nat) (rest : List Char) : List Json → List Char
  | [] => rest
  | item :: items => ',' :: newLine level (print level (printItems level rest items) item)

def printFields (level : Nat) (rest : List Char) : List (String × Json) → List Char
  | [] => rest
  | (key, value) :: fields =>
    let others := printFields level rest fields
    ',' :: newLine level (quote key (':' :: ' ' :: print level others value))

end

def text (json : Json) : String := String.ofList (print 0 [] json)

end Json

end PairMarkup
