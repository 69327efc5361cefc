import PairMarkup.Choice

namespace PairMarkup

/-- What is known of an alias definition. -/
structure DefinitionInfo where
  /-- The first parameter of each name, in pre-order. -/
  parameters : List PairId := []
  hasDefaultBlock : Bool := false
  hasDefaultValue : Bool := false
  isCircular : Bool := false
deriving DecidableEq, Inhabited

inductive Kind where
  | moduleRoot (format : Format)
  /-- A document is implicit if it holds what stands outside of any document. -/
  | document (choices : ChoiceTree) (implicit : Bool)
  | element
  | attr
  | scope
  | aliasDefinition (info : DefinitionInfo)
  | aliasUsage (definition : Option PairId)
  | parameter (definition : Option PairId) (place : Place)
  | argument
  | namespaceDefinition
  | comment

namespace Kind

def name : Kind → String
  | moduleRoot _ => "module"
  | document _ _ => "document"
  | element => "element"
  | attr => "attribute"
  | scope => "scope"
  | aliasDefinition _ => "alias definition"
  | aliasUsage _ => "alias"
  | parameter _ _ => "parameter"
  | argument => "argument"
  | namespaceDefinition => "namespace definition"
  | comment => "comment"

def isModule : Kind → Bool
  | moduleRoot _ => true
  | _ => false

def isDocument : Kind → Bool
  | document _ _ => true
  | _ => false

def isElement : Kind → Bool
  | element => true
  | _ => false

def isScope : Kind → Bool
  | scope => true
  | _ => false

def isAliasDefinition : Kind → Bool
  | aliasDefinition _ => true
  | _ => false

def isAliasUsage : Kind → Bool
  | aliasUsage _ => true
  | _ => false

def isParameter : Kind → Bool
  | parameter _ _ => true
  | _ => false

def isArgument : Kind → Bool
  | argument => true
  | _ => false

def isNamespaceDefinition : Kind → Bool
  | namespaceDefinition => true
  | _ => false

def isComment : Kind → Bool
  | comment => true
  | _ => false

/-- Alias definitions written below such a pair are known throughout it. -/
def isScopeOwner : Kind → Bool
  | moduleRoot _ | document _ _ | aliasDefinition _ => true
  | _ => false

end Kind

/-- A pair of a tree, with the numbers of the pairs around it. -/
structure Pair where
  kind : Kind
  span : Span
  nameSpan : Span
  file : String
  /-- The number of the pair's module in its unit, from zero. -/
  fileIndex : Nat
  name : Option String := none
  nsPrefix : Option String := none
  /-- The namespace that the prefix or the place of the pair stands for. -/
  namespaceUri : Option String := none
  value : Option String := none
  valueKind : ValueKind := .none
  delimiter : Delimiter := .none
  children : List PairId := []
  /-- The parts of a value that is put together, in order. -/
  items : Option (List PairId) := none
  parent : Option PairId := none
  /-- The pair is an alternative of a choice. -/
  isChoice : Bool := false

namespace Pair

variable (p : Pair)

/-- A pair with nothing in it and no neighbours. -/
def bare (kind : Kind) (span : Span) (file : String) (fileIndex : Nat) : Pair :=
  { kind, span, nameSpan := span, file, fileIndex }

instance : Inhabited Pair := ⟨bare .comment default "" 0⟩

def nameText : String := p.name.getD ""

def qualifiedName : String :=
  match p.nsPrefix, p.name with
  | some before, some name => before ++ "." ++ name
  | some before, none => before
  | none, some name => name
  | none, none => ""

/-- The pairs held, first those of the block and then those of the value. -/
def held : List PairId := p.children ++ p.items.getD []

def mapChoices (f : ChoiceTree → ChoiceTree) (p : Pair) : Pair :=
  match p.kind with
  | .document choices implicit => { p with kind := .document (f choices) implicit }
  | _ => p

def mapInfo (f : DefinitionInfo → DefinitionInfo) (p : Pair) : Pair :=
  match p.kind with
  | .aliasDefinition info => { p with kind := .aliasDefinition (f info) }
  | _ => p

def definitionInfo? : Option DefinitionInfo :=
  match p.kind with
  | .aliasDefinition info => some info
  | _ => none

end Pair

end PairMarkup
