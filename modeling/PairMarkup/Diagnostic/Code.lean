namespace PairMarkup

/-- What a diagnostic is about. The first eight arise while a text is read, the
    others while references are resolved. -/
inductive Code where
  | mixedIndentation
  | invalidIndentMultiplicity
  | invalidIndentation
  | missingClosingQuote
  | missingClosingParenthesis
  | unexpectedCharacter
  | invalidEscapeSequence
  | blockIsNotExpected
  | namespacePrefixNotDefined
  | duplicateNamespaceDefinition
  | aliasIsNotDefined
  | duplicateAliasDefName
  | aliasDefHasCircularReference
  | argumentIsMissing
  | argumentIsUnexpected
  | duplicateArgumentName
  | valueArgumentIsExpected
  | blockArgumentIsExpected
  | argumentMustBeDefinedInAlias
  | parameterMustBeDefinedInAliasDefinition
  | defaultParameterMustBeOnly
  | defaultBlockArgumentIsMissing
  | defaultValueArgumentIsMissing
  | defaultBlockArgumentIsUnexpected
  | defaultValueArgumentIsUnexpected
  | documentMustHaveOneRootElement
deriving DecidableEq

namespace Code

variable (code : Code)

def name : Code → String
  | mixedIndentation => "MixedIndentation"
  | invalidIndentMultiplicity => "InvalidIndentMultiplicity"
  | invalidIndentation => "InvalidIndentation"
  | missingClosingQuote => "MissingClosingQuote"
  | missingClosingParenthesis => "MissingClosingParenthesis"
  | unexpectedCharacter => "UnexpectedCharacter"
  | invalidEscapeSequence => "InvalidEscapeSequence"
  | blockIsNotExpected => "BlockIsNotExpected"
  | namespacePrefixNotDefined => "NamespacePrefixNotDefined"
  | duplicateNamespaceDefinition => "DuplicateNamespaceDefinition"
  | aliasIsNotDefined => "AliasIsNotDefined"
  | duplicateAliasDefName => "DuplicateAliasDefName"
  | aliasDefHasCircularReference => "AliasDefHasCircularReference"
  | argumentIsMissing => "ArgumentIsMissing"
  | argumentIsUnexpected => "ArgumentIsUnexpected"
  | duplicateArgumentName => "DuplicateArgumentName"
  | valueArgumentIsExpected => "ValueArgumentIsExpected"
  | blockArgumentIsExpected => "BlockArgumentIsExpected"
  | argumentMustBeDefinedInAlias => "ArgumentMustBeDefinedInAlias"
  | parameterMustBeDefinedInAliasDefinition => "ParameterMustBeDefinedInAliasDefinition"
  | defaultParameterMustBeOnly => "DefaultParameterMustBeOnly"
  | defaultBlockArgumentIsMissing => "DefaultBlockArgumentIsMissing"
  | defaultValueArgumentIsMissing => "DefaultValueArgumentIsMissing"
  | defaultBlockArgumentIsUnexpected => "DefaultBlockArgumentIsUnexpected"
  | defaultValueArgumentIsUnexpected => "DefaultValueArgumentIsUnexpected"
  | documentMustHaveOneRootElement => "DocumentMustHaveOneRootElement"

/-- What arises while a text is read is numbered from 101 on, the rest from 201 on. -/
def number : Nat := if code.ctorIdx < 8 then 101 + code.ctorIdx else 193 + code.ctorIdx

/-- The codes of what is found while a text is read. -/
def IsOfReading : Prop := code.number < 200

instance (code : Code) : Decidable code.IsOfReading := inferInstanceAs (Decidable (_ < _))

/-- The wording, with numbers in braces where the arguments go. -/
def template : Code → String
  | mixedIndentation => "Mixed indentation: tabs and spaces cannot be combined"
  | invalidIndentMultiplicity =>
    "Indentation of \x7b0\x7d is not a multiple of the indent unit \x7b1\x7d"
  | invalidIndentation => "Unexpected indentation"
  | missingClosingQuote => "Missing closing \x7b0\x7d"
  | missingClosingParenthesis => "Missing closing parenthesis"
  | unexpectedCharacter => "Unexpected character '\x7b0\x7d'"
  | invalidEscapeSequence => "Invalid escape sequence '\x7b0\x7d'"
  | blockIsNotExpected => "Block is not expected after \x7b0\x7d '\x7b1\x7d'"
  | namespacePrefixNotDefined => "Namespace prefix '\x7b0\x7d' is not defined"
  | duplicateNamespaceDefinition => "Namespace prefix '\x7b0\x7d' is already defined in this scope"
  | aliasIsNotDefined => "Alias '\x7b0\x7d' is not defined"
  | duplicateAliasDefName => "Alias '\x7b0\x7d' is already defined in this scope"
  | aliasDefHasCircularReference => "Alias definition '\x7b0\x7d' has a circular reference"
  | argumentIsMissing => "Argument '\x7b0\x7d' is missing in alias '\x7b1\x7d'"
  | argumentIsUnexpected => "Alias '\x7b1\x7d' has no parameter '\x7b0\x7d'"
  | duplicateArgumentName => "Argument '\x7b0\x7d' is already given"
  | valueArgumentIsExpected => "Value argument is expected for '\x7b0\x7d'"
  | blockArgumentIsExpected => "Block argument is expected for '\x7b0\x7d'"
  | argumentMustBeDefinedInAlias => "Argument '\x7b0\x7d' must be defined inside an alias"
  | parameterMustBeDefinedInAliasDefinition =>
    "Parameter '\x7b0\x7d' must be defined inside an alias definition"
  | defaultParameterMustBeOnly => "Default parameter must be the only parameter of '\x7b0\x7d'"
  | defaultBlockArgumentIsMissing => "Default block argument is missing in alias '\x7b0\x7d'"
  | defaultValueArgumentIsMissing => "Default value argument is missing in alias '\x7b0\x7d'"
  | defaultBlockArgumentIsUnexpected => "Alias '\x7b0\x7d' does not take a default block argument"
  | defaultValueArgumentIsUnexpected => "Alias '\x7b0\x7d' does not take a default value argument"
  | documentMustHaveOneRootElement => "Document '\x7b0\x7d' must have exactly one root element"

/-- Replaces every occurrence of `mark` by `value`, from left to right, after
    dropping `skip` characters. -/
def fill (mark value : List Char) : Nat → List Char → List Char
  | _, [] => []
  | skip + 1, _ :: rest => fill mark value skip rest
  | 0, c :: rest =>
    if mark.isPrefixOf (c :: rest) then value ++ fill mark value (mark.length - 1) rest
    else c :: fill mark value 0 rest

/-- Fills in the arguments from the one numbered `index` on, one after the
    other, each over the whole text so far. -/
def fillAll : Nat → List String → List Char → List Char
  | _, [], text => text
  | index, argument :: arguments, text =>
    let mark := '\x7b' :: (toString index).toList ++ ['\x7d']
    fillAll (index + 1) arguments (fill mark argument.toList 0 text)

def format (arguments : List String) : String := String.ofList (fillAll 0 arguments code.template.toList)

end Code

end PairMarkup
