import PairMarkup.Line.Basic
import PairMarkup.Text.Number
import PairMarkup.Tree

namespace PairMarkup

variable (format : Format)

/-- The kind of a value that is written without quotes on one line. -/
def Format.openValueKind (text : String) : ValueKind :=
  match format with
  | .xml => .openString
  | .json =>
    if text = "null" then .null
    else if text = "true" || text = "false" then .boolean
    else if Text.isNumberLiteral text.toList then .number
    else .openString

/-- Where a pair is found: the pair it is put into, whether it stands in place of
    a value, and whether it is in the group right behind an alias usage. -/
structure Setting where
  parent : PairId
  inValue : Bool
  isInlineArgument : Bool

/-- A percent sign marks a parameter inside of an alias definition, unless the
    pair is put directly into an alias usage, and an argument elsewhere. -/
def percentKind (tree : PairTree) (setting : Setting) : Kind :=
  let parent := tree.kind setting.parent
  if setting.inValue then .parameter none .value
  else if parent.isAliasUsage then .argument
  else if parent.isAliasDefinition || (tree.enclosingDefinition? setting.parent).isSome then
    .parameter none .block
  else .argument

/-- The kinds that are written alike in both formats. -/
def sharedKind? (tree : PairTree) (setting : Setting) (head : Head) : Option Kind :=
  match head.sigil with
  | .document => some (.document .empty false)
  | .aliasDefinition => some (.aliasDefinition {})
  | .parameter => some (.parameter none .block)
  | .aliasUsage => some (.aliasUsage none)
  | .percent => some (percentKind tree setting)
  | .none => if setting.isInlineArgument && head.name.isSome then some .argument else none
  | .namespaceDefinition | .scope | .attr => none

/-- The kind of value that a block behind the delimiter makes. -/
def Delimiter.blockValueKind : Delimiter → ValueKind
  | colon | doubleColon => .object
  | colonEqual => .concatenation
  | equalColon => .literalChoice
  | none | equal | doubleEqual => .none

/-- Splits a name at its first dot into prefix and local name, if neither of
    them is empty. -/
def splitName (text : String) : Option String × Option String :=
  let before := text.toList.takeWhile (· ≠ '.')
  let after := (text.toList.dropWhile (· ≠ '.')).drop 1
  if !before.isEmpty && !after.isEmpty then (some (String.ofList before), some (String.ofList after))
  else if text.isEmpty then (none, none)
  else (none, some text)

/-- The name, unless it is empty. -/
def Head.nonemptyName? (head : Head) : Option String := (head.name.map (·.text)).filter fun text => !text.isEmpty

/-- Prefix and local name. A name in quotes has no prefix. -/
def Head.prefixedName (head : Head) : Option String × Option String :=
  match head.name with
  | none => (none, none)
  | some name => if name.quote.isNone then splitName name.text else (none, some name.text)

/-- The kind of a pair, its namespace prefix and its name. JSON has neither
    namespaces nor attributes, so there their sigils belong to the name. A scope
    without a dot in its name is named for its prefix alone. -/
def Format.interpret (tree : PairTree) (setting : Setting) (head : Head) : Kind × Option String × Option String :=
  match sharedKind? tree setting head, format, head.sigil with
  | some kind, _, _ => (kind, none, head.nonemptyName?)
  | none, .xml, .namespaceDefinition => (.namespaceDefinition, none, head.nonemptyName?)
  | none, .xml, .scope =>
    match head.prefixedName with
    | (some before, name) => (.scope, some before, name)
    | (none, name) => (.scope, name, none)
  | none, .xml, .attr => (.attr, head.prefixedName)
  | none, .xml, _ => (.element, head.prefixedName)
  | none, .json, .none => (.element, none, head.nonemptyName?)
  | none, .json, sigil =>
    (.element, none, some (sigil.text ++ (head.name.map (·.text)).getD ""))

/-- The pair that a head begins, not yet attached. -/
def Format.makePair (file : String) (fileIndex : Nat) (tree : PairTree) (setting : Setting) (head : Head) : Pair :=
  let (kind, nsPrefix, name) := format.interpret tree setting head
  { Pair.bare kind head.span file fileIndex with
    nameSpan := (head.name.map (·.span)).getD head.span
    name
    nsPrefix
    delimiter := head.delimiter
    valueKind := head.delimiter.blockValueKind }

end PairMarkup
