import PairMarkup.ModuleSet

namespace PairMarkup

/-- The names that one pair brings in. Of several entries for a name the first
    one counts. -/
structure Frame where
  aliases : List (String × PairId)
  namespaces : List (String × String)
deriving DecidableEq

/-- What is known at a place: frames and default namespaces, innermost first. -/
inductive Scope where
  | empty
  | frame (names : Frame) (outer : Scope)
  | defaultNamespace (uri : String) (outer : Scope)
deriving DecidableEq

namespace Scope

def aliasFor? (name : String) : Scope → Option PairId
  | empty => none
  | frame names outer => (names.aliases.lookup name).or (aliasFor? name outer)
  | defaultNamespace _ outer => aliasFor? name outer

def namespaceFor? (name : String) : Scope → Option String
  | empty => none
  | frame names outer => (names.namespaces.lookup name).or (namespaceFor? name outer)
  | defaultNamespace _ outer => namespaceFor? name outer

def defaultNamespace? : Scope → Option String
  | empty => none
  | frame _ outer => defaultNamespace? outer
  | defaultNamespace uri _ => some uri

end Scope

namespace PairTree

variable (t : PairTree)

/-- The alias definitions at or below a pair, in pre-order and down to the given
    depth, without those inside of other definitions, documents and modules. -/
def definitionsTo (t : PairTree) : (depth : Nat) → PairId → List PairId
  | 0, _ => []
  | n + 1, id =>
    let kind := t.kind id
    if kind.isAliasDefinition then [id]
    else if kind.isDocument || kind.isModule then []
    else (t.children id).flatMap (t.definitionsTo n)

/-- The alias definitions that are known throughout `owner`. -/
def hoisted (owner : PairId) : List PairId :=
  if (t.kind owner).isScopeOwner then (t.children owner).flatMap (t.definitionsTo t.size) else []

def namespaceDefinitions (id : PairId) : List PairId :=
  (t.children id).filter fun c => (t.kind c).isNamespaceDefinition

def declares (id : PairId) : Bool := (t.kind id).isScopeOwner || !(t.namespaceDefinitions id).isEmpty

/-- The names that a pair brings in. -/
def frame (id : PairId) : Frame where
  aliases := (t.hoisted id).map fun d => ((t.get d).nameText, d)
  namespaces := (t.namespaceDefinitions id).map fun d =>
    ((t.get d).nameText, (t.get d).value.getD "")

/-- The scope inside of a pair, given the scope around it. -/
def enter (id : PairId) (scope : Scope) : Scope :=
  if t.declares id then .frame (t.frame id) scope else scope

/-- The namespace that a scope pair makes the default inside of it. -/
def openedNamespace? (id : PairId) (scope : Scope) : Option String :=
  if (t.kind id).isScope then (t.get id).nsPrefix.bind scope.namespaceFor? else none

/-- The scope inside of a pair with the default namespace that it opens. -/
def enterFully (scope : Scope) (id : PairId) : Scope :=
  let inner := t.enter id scope
  match t.openedNamespace? id inner with
  | some uri => .defaultNamespace uri inner
  | none => inner

def pathTo (id : PairId) : List PairId := (t.ancestors id).reverse ++ [id]

/-- The scope inside of a pair, found along the path to it. -/
def scopeInside (root : Scope) (id : PairId) : Scope := (t.pathTo id).foldl t.enterFully root

/-- The scope around a pair, found along the path to it. -/
def scopeAround (root : Scope) (id : PairId) : Scope :=
  match t.parent? id with
  | none => root
  | some parent => t.scopeInside root parent

/-- The scope below a pair that was handled: a scope opens its namespace. -/
def openScope (id : PairId) (inner : Scope) : Scope :=
  let pair := t.get id
  match if pair.kind.isScope then pair.namespaceUri else none with
  | some uri => .defaultNamespace uri inner
  | none => inner

/-- Those definitions whose name occurs before them in the list. -/
def repeated (t : PairTree) (ids : List PairId) : List PairId := go [] ids
where
  go (seen : List String) : List PairId → List PairId
    | [] => []
    | id :: ids =>
      let name := (t.get id).nameText
      if seen.contains name then id :: go seen ids else go (name :: seen) ids

end PairTree

/-- The namespace that the prefix `xml` always stands for. -/
def xmlNamespace : String := "http://www.w3.org/XML/1998/namespace"

/-- What all modules know of one another: the names of the first module come
    first. -/
def ModuleSet.globalScope (set : ModuleSet) : Scope :=
  let frames := set.modules.map set.tree.frame
  .frame ⟨frames.flatMap (·.aliases), ("xml", xmlNamespace) :: frames.flatMap (·.namespaces)⟩ .empty

end PairMarkup
