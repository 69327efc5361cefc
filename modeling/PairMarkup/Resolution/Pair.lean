import PairMarkup.Resolution.Basic

namespace PairMarkup

/-- A scope with a local name becomes a scope with one element of that name, which
    takes over what the scope held. -/
def PairTree.splitScope (t : PairTree) (id : PairId) : PairTree :=
  let pair := t.get id
  if !pair.kind.isScope || pair.name.isNone then t
  else
    let (children, tree) := (t.modify id fun pair => { pair with name := none }).takeChildren id
    let element :=
      { Pair.bare .element pair.span pair.file pair.fileIndex with
        nameSpan := pair.nameSpan
        name := pair.name
        nsPrefix := pair.nsPrefix
        delimiter := pair.delimiter
        valueKind := pair.valueKind }
    let (inner, tree) := tree.add element
    let tree := (tree.adoptChildren inner children).adoptChildren id [inner]
    tree.modify id fun pair => { pair with valueKind := .object }

namespace Progress

variable (p : Progress)

def splitScope (p : Progress) (id : PairId) : Progress := p.setTree (p.tree.splitScope id)

/-- Finds the namespace of an element, attribute or scope. A prefix is looked up;
    an element without one is in the default namespace. -/
def bindNamespace (branch : Option Branch) (scope : Scope) (id : PairId) : Progress :=
  let pair := p.tree.get id
  match pair.nsPrefix with
  | some before =>
    match scope.namespaceFor? before with
    | some uri => p.modify id fun pair => { pair with namespaceUri := some uri }
    | none => p.report branch .namespacePrefixNotDefined [before] id pair.nameSpan
  | none =>
    let uri := if pair.kind.isElement then scope.defaultNamespace? else none
    p.modify id fun pair => { pair with namespaceUri := uri }

/-- Ties a parameter to the definition that it is written in. -/
def bindParameter (branch : Option Branch) (id : PairId) : Progress :=
  match p.tree.enclosingDefinition? id with
  | none => p.reportName branch .parameterMustBeDefinedInAliasDefinition id
  | some definition =>
    p.modify id fun pair =>
      match pair.kind with
      | .parameter _ place => { pair with kind := .parameter (some definition) place }
      | _ => pair

/-- Arguments may stand only directly in an alias usage. -/
def checkArgumentPlace (branch : Option Branch) (id : PairId) : Progress :=
  if (p.tree.parent? id).any fun parent => (p.tree.kind parent).isAliasUsage then p
  else p.reportName branch .argumentMustBeDefinedInAlias id

def formatOf (id : PairId) : Format := (p.set.modules[(p.tree.get id).fileIndex]?.bind p.set.format?).getD .xml

/-- A document in XML has one root element. -/
def checkRoots (branch : Option Branch) (id : PairId) : Progress :=
  let roots := (p.tree.contentChildren id).filter fun c =>
    !(p.tree.kind c).isNamespaceDefinition && !(p.tree.kind c).isAliasDefinition
  match p.formatOf id, roots with
  | .xml, _ :: second :: _ =>
    p.report branch .documentMustHaveOneRootElement [(p.tree.get id).nameText] second (p.tree.get second).span
  | _, _ => p

/-- Whether a pair holds content other than arguments. -/
def hasOwnContent (tree : PairTree) (id : PairId) : Bool :=
  (tree.contentChildren id).any fun c => !(tree.kind c).isArgument

/-- A usage without a value or content of its own has the kind of value that its
    definition has. A block without content is empty. -/
def settleValueKind (id : PairId) : Progress :=
  let pair := p.tree.get id
  match pair.kind with
  | .aliasUsage (some definition) =>
    if pair.delimiter = .none && (pair.valueKind = .none || pair.valueKind = .object) && !hasOwnContent p.tree id then
      let valueKind := (p.tree.get definition).valueKind
      p.modify id fun pair => { pair with valueKind }
    else p
  | kind =>
    if pair.valueKind = .object && pair.items.isNone && (p.tree.contentChildren id).isEmpty && !kind.isModule then
      p.modify id fun pair => { pair with valueKind := .empty }
    else p

end Progress

end PairMarkup
