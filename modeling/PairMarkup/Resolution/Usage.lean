import PairMarkup.Resolution.Pair

namespace PairMarkup

/-- A diagnostic that is yet to be reported. -/
structure Complaint where
  code : Code
  arguments : List String
  subject : PairId
  span : Span
deriving DecidableEq

namespace PairTree

def arguments (t : PairTree) (usage : PairId) : List PairId :=
  (t.contentChildren usage).filter fun c => (t.kind c).isArgument

/-- Holds one argument against the parameters, `given` being the names of those
    before it. An argument without a name is not looked at. -/
def argumentComplaints (t : PairTree) (signature : Signature) (usage : String) (given : List String)
    (id : PairId) : List Complaint :=
  let pair := t.get id
  match pair.name with
  | none => []
  | some name =>
    if given.contains name then [⟨.duplicateArgumentName, [name], id, pair.nameSpan⟩]
    else
      match signature.parameters.lookup name with
      | none => [⟨.argumentIsUnexpected, [name, usage], id, pair.nameSpan⟩]
      | some parameter =>
        if parameter.isValue && !pair.delimiter.isValue then
          [⟨.valueArgumentIsExpected, [name], id, pair.nameSpan⟩]
        else if !parameter.isValue && pair.delimiter.isValue then
          [⟨.blockArgumentIsExpected, [name], id, pair.nameSpan⟩]
        else []

def argumentsComplaints (t : PairTree) (signature : Signature) (usage : String) :
    (given : List String) → List PairId → List Complaint
  | _, [] => []
  | given, id :: ids =>
    t.argumentComplaints signature usage given id ++
      t.argumentsComplaints signature usage (given ++ (t.get id).name.toList) ids

/-- What is wrong with the arguments of a usage: first the arguments themselves,
    then the parameters that lack one, then those without a name. -/
def usageComplaints (t : PairTree) (usage definition : PairId) : List Complaint :=
  let signature := t.signature definition
  let pair := t.get usage
  let name := pair.nameText
  let arguments := t.arguments usage
  let given := arguments.filterMap fun id => (t.get id).name
  let missing := signature.parameters.filterMap fun (parameter, info) =>
    if info.isRequired && !given.contains parameter then
      some ⟨.argumentIsMissing, [parameter, name], usage, pair.nameSpan⟩
    else none
  let givesValue := pair.delimiter.isValue || pair.items.isSome
  let givesBlock := pair.valueKind != .pairValue && Progress.hasOwnContent t usage
  t.argumentsComplaints signature name [] arguments ++ missing ++
    defaultComplaints pair.nameSpan name signature.hasDefaultValue givesValue
      .defaultValueArgumentIsMissing .defaultValueArgumentIsUnexpected ++
    defaultComplaints pair.nameSpan name signature.hasDefaultBlock givesBlock
      .defaultBlockArgumentIsMissing .defaultBlockArgumentIsUnexpected
where
  defaultComplaints (span : Span) (name : String) (expected supplied : Bool)
      (missing unexpected : Code) : List Complaint :=
    match expected, supplied with
    | true, false => [⟨missing, [name], usage, span⟩]
    | false, true => [⟨unexpected, [name], usage, span⟩]
    | _, _ => []

end PairTree

namespace Progress

variable (p : Progress)

def checkArguments (branch : Option Branch) (usage definition : PairId) : Progress :=
  (p.tree.usageComplaints usage definition).foldl (fun p c => p.report branch c.code c.arguments c.subject c.span) p

def tie (usage definition : PairId) : Progress :=
  p.modify usage fun pair => { pair with kind := .aliasUsage (some definition) }

/-- Marks a definition as circular and reports it, unless it is marked already. -/
def markCircular (branch : Option Branch) (p : Progress) (id : PairId) : Progress :=
  match (p.tree.get id).kind with
  | .aliasDefinition info =>
    if info.isCircular then p
    else
      let p := p.modify id (Pair.mapInfo ({ · with isCircular := true }))
      p.reportName branch .aliasDefHasCircularReference id
  | _ => p

def withSignature (id : PairId) : Progress :=
  let signature := p.tree.signature id
  p.modify id <| Pair.mapInfo fun info =>
    { info with
      parameters := signature.parameters.map fun (_, parameter) => parameter.pair
      hasDefaultBlock := signature.hasDefaultBlock
      hasDefaultValue := signature.hasDefaultValue }

def recordSignature (branch : Option Branch) (id : PairId) : Progress :=
  let conflict := p.tree.conflictingDefault? id
  let p := p.withSignature id
  match conflict with
  | some parameter =>
    p.report branch .defaultParameterMustBeOnly [(p.tree.get id).nameText] parameter (p.tree.get parameter).span
  | none => p

end Progress

end PairMarkup
