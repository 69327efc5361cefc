import PairMarkup.Resolution.Usage

namespace PairMarkup

inductive ExpandedKind where
  | document
  | element
  | attr
deriving DecidableEq, Inhabited

def ExpandedKind.name : ExpandedKind → String
  | document => "document"
  | element => "element"
  | attr => "attribute"

/-- A pair of the finished document, in which no alias is left. -/
structure Expanded where
  kind : ExpandedKind
  name : String
  nsPrefix : Option String
  namespaceUri : Option String
  value : Option String
  valueKind : ValueKind
  isChoice : Bool
  children : List Expanded

def Expanded.child? (e : Expanded) (name : String) : Option Expanded := e.children.find? (·.name = name)

/-- What surrounds a pair while it is expanded: nothing, or the definition it is
    in, the usage that asked for it and what surrounds that usage. -/
inductive Surroundings where
  | document
  | call (definition usage : PairId) (caller : Surroundings)
deriving DecidableEq

namespace Surroundings

def definition? : Surroundings → Option PairId
  | document => none
  | call definition _ _ => some definition

def usage? : Surroundings → Option PairId
  | document => none
  | call _ usage _ => some usage

/-- Where the arguments of the usage were written. -/
def caller : Surroundings → Surroundings
  | document => document
  | call _ _ caller => caller

def depth : Surroundings → Nat
  | document => 0
  | call _ _ caller => caller.depth + 1

end Surroundings

/-- A pair, what surrounds it, and in how many alias usages it is nested. -/
structure Occurrence where
  pair : PairId
  within : Surroundings
  depth : Nat
deriving DecidableEq

namespace PairTree

variable (t : PairTree) (limit : Nat) (o : Occurrence)

/-- The argument that the usage gives for a name. Of several the first counts. -/
def argument? (within : Surroundings) (name : String) : Option PairId :=
  match within.usage? with
  | none => none
  | some usage => (t.arguments usage).find? fun id => (t.get id).name = some name

/-- The first parameter of that name in the definition that comes with a value. -/
def defaultFor? (within : Surroundings) (name : String) : Option PairId :=
  match within.definition? with
  | none => none
  | some definition =>
    (t.preorder definition).find? fun id =>
      let pair := t.get id
      pair.kind.isParameter && pair.name = some name && (pair.delimiter.isValue || pair.valueKind = .pairValue)

/-- What surrounds the body of a definition when a usage at `o` asks for it.
    Circular definitions are not entered, and no more than `limit` usages are
    entered inside of each other. -/
def enter? (definition : PairId) : Option Surroundings :=
  match (t.get definition).definitionInfo? with
  | none => none
  | some info =>
    if info.isCircular || limit ≤ o.depth then none
    else some (.call definition o.pair o.within)

/-- The pair whose value an alias usage or a parameter stands for. -/
def valueSource? : Option Occurrence :=
  match t.kind o.pair with
  | .aliasUsage (some definition) =>
    (t.enter? limit o definition).map fun within => ⟨definition, within, o.depth + 1⟩
  | .parameter _ _ =>
    match (t.get o.pair).name with
    | none => o.within.usage?.map fun usage => ⟨usage, o.within.caller, o.depth⟩
    | some name =>
      match t.argument? o.within name with
      | some argument => some ⟨argument, o.within.caller, o.depth⟩
      | none => (t.defaultFor? o.within name).map fun id => ⟨id, o.within, o.depth⟩
  | _ => none

/-- The alias usage or parameter that stands in place of a value. -/
def reference? (id : PairId) : Option PairId :=
  (t.children id).find? fun child => (t.kind child).isAliasUsage || (t.kind child).isParameter

/-- The value of a pair and its kind, found in at most so many steps from pair to
    pair. A value that is put together takes its texts from its parts. -/
def valueTo : (steps : Nat) → Occurrence → Option (Option String × ValueKind)
  | 0, _ => none
  | n + 1, o =>
    let follow (source : Option Occurrence) : Option (Option String × ValueKind) :=
      match source with
      | some source => valueTo n source
      | none => some (none, .none)
    let pair := t.get o.pair
    match pair.items with
    | some items =>
      let parts := items.mapM fun item =>
        let part : Occurrence := { o with pair := item }
        if (t.kind item).isElement then valueTo n part else follow (t.valueSource? limit part)
      parts.map fun parts =>
        (some (String.join (parts.map fun part => part.1.getD "")), .concatenation)
    | none =>
      if pair.valueKind = .pairValue then
        follow ((t.reference? o.pair).bind fun reference =>
          t.valueSource? limit { o with pair := reference })
      else some (pair.value, pair.valueKind)

/-- The children of a pair, unless its only child stands in place of a value. -/
def blockOf : List Occurrence :=
  if (t.get o.pair).valueKind = .pairValue then []
  else (t.children o.pair).map fun child => { o with pair := child }

/-- What is expanded in place of a pair that is not itself part of the document. -/
def replacement : List Occurrence :=
  match t.kind o.pair with
  | .scope => t.blockOf o
  | .aliasUsage (some definition) =>
    match t.enter? limit o definition with
    | some within => t.blockOf ⟨definition, within, o.depth + 1⟩
    | none => []
  | .parameter _ _ =>
    match (t.get o.pair).name with
    | some name =>
      match t.argument? o.within name with
      | some argument => t.blockOf ⟨argument, o.within.caller, o.depth⟩
      | none => t.blockOf o
    | none =>
      match o.within.usage? with
      | none => []
      | some usage =>
        if (t.get usage).valueKind = .pairValue then []
        else
          let given := (t.contentChildren usage).filter fun id => !(t.kind id).isArgument
          given.map fun id => ⟨id, o.within.caller, o.depth⟩
  | _ => []

/-- The pairs inside of a pair with the given value. A reference that has no value
    stands for a block. -/
def inside (value : Option String) : List Occurrence :=
  let pair := t.get o.pair
  if pair.valueKind = .pairValue then
    if value.isNone then (t.reference? o.pair).toList.map fun id => { o with pair := id } else []
  else if pair.items.isNone then t.blockOf o
  else []

def expandedKind? : Kind → Option ExpandedKind
  | .document _ _ => some .document
  | .element => some .element
  | .attr => some .attr
  | _ => none

/-- Expands a pair in at most so many steps from pair to pair, where each value is
    found in at most `valueSteps`. -/
def expandTo (valueSteps : Nat) : (steps : Nat) → Occurrence → Option (List Expanded)
  | 0, _ => none
  | n + 1, o =>
    let all (os : List Occurrence) : Option (List Expanded) :=
      (os.mapM fun o => expandTo valueSteps n o).map List.flatten
    let pair := t.get o.pair
    match expandedKind? pair.kind with
    | none => all (t.replacement limit o)
    | some kind =>
      match t.valueTo limit valueSteps o with
      | none => none
      | some (value, valueKind) =>
        (all (t.inside o value)).map fun children =>
          [{ kind
             name := pair.nameText
             nsPrefix := pair.nsPrefix
             namespaceUri := pair.namespaceUri
             value
             valueKind := if value.isNone && !children.isEmpty then .object else valueKind
             isChoice := pair.isChoice
             children }]

/-- On one way through the expansion at most `limit` usages are entered and at most
    twice as many left. In between there are only steps down the tree and from a
    parameter to its default, and no default comes twice unless it refers to
    itself. -/
def stepBound : Nat := (3 * limit + 1) * ((t.size + 1) * (t.size + 1)) + 1

/-- Expands a document. There is no result if the pair is no document, or if a
    default refers to itself. -/
def expandDocument? (id : PairId) : Option Expanded :=
  if (t.kind id).isDocument then
    (t.expandTo limit (t.stepBound limit) (t.stepBound limit) ⟨id, .document, 0⟩).bind List.head?
  else none

end PairTree

namespace ModuleSet

def expandModule (set : ModuleSet) (limit : Nat) (id : PairId) : List Expanded :=
  (set.documents id).filterMap (set.tree.expandDocument? limit)

def expand (set : ModuleSet) (limit : Nat) : List Expanded := set.modules.flatMap (set.expandModule limit)

end ModuleSet

end PairMarkup
