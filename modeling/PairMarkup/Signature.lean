import PairMarkup.ModuleSet

namespace PairMarkup

/-- A named parameter of an alias definition. -/
structure ParameterInfo where
  /-- Where the name occurs first. -/
  pair : PairId
  isRequired : Bool
  isValue : Bool
deriving DecidableEq

structure Signature where
  /-- By name, in order of first occurrence. -/
  parameters : List (String × ParameterInfo)
  hasDefaultValue : Bool
  hasDefaultBlock : Bool
deriving DecidableEq

namespace PairTree

variable (t : PairTree)

/-- A pair and those below it, in pre-order and down to the given depth, without
    nested alias definitions and what they hold. -/
def bodyTo (t : PairTree) : (depth : Nat) → PairId → List PairId
  | 0, _ => []
  | n + 1, id =>
    if (t.kind id).isAliasDefinition then [] else id :: (t.get id).held.flatMap (t.bodyTo n)

/-- The pairs that belong to an alias definition itself. -/
def body (definition : PairId) : List PairId := (t.get definition).held.flatMap (t.bodyTo t.size)

/-- The parameters of an alias definition, each as often as it occurs. -/
def ownParameters (definition : PairId) : List PairId := (t.body definition).filter fun id => (t.kind id).isParameter

/-- A parameter takes a value if it stands in place of one or has one. -/
def takesValue (id : PairId) : Bool :=
  let pair := t.get id
  (match pair.kind with
    | .parameter _ .value => true
    | _ => false) || pair.delimiter.isValue

/-- A parameter has no default if nothing is written behind its name. -/
def lacksDefault (id : PairId) : Bool :=
  let pair := t.get id
  pair.delimiter = .none && pair.value.isNone && (t.contentChildren id).isEmpty

/-- Those named parameters whose name does not occur before them in the list. -/
def firstByName (t : PairTree) (ids : List PairId) : List (String × ParameterInfo) := go [] ids
where
  go (seen : List String) : List PairId → List (String × ParameterInfo)
    | [] => []
    | id :: ids =>
      match (t.get id).name with
      | none => go seen ids
      | some name =>
        if seen.contains name then go seen ids
        else (name, ⟨id, t.lacksDefault id, t.takesValue id⟩) :: go (name :: seen) ids

def defaultParameters (definition : PairId) : List PairId :=
  (t.ownParameters definition).filter fun id => (t.get id).name.isNone

def signature (definition : PairId) : Signature where
  parameters := t.firstByName (t.ownParameters definition)
  hasDefaultValue := (t.defaultParameters definition).any t.takesValue
  hasDefaultBlock := (t.defaultParameters definition).any fun id => !t.takesValue id

/-- The first parameter without a name, if there are others beside it: named ones,
    or one of the other sort without a name. -/
def conflictingDefault? (definition : PairId) : Option PairId :=
  let signature := t.signature definition
  if !signature.parameters.isEmpty || (signature.hasDefaultValue && signature.hasDefaultBlock) then
    (t.defaultParameters definition).head?
  else none

end PairTree

end PairMarkup
