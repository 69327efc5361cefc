import PairMarkup.Failure
import PairMarkup.Pair.Basic

namespace PairMarkup

/-- All pairs ever made, by number, attached or not. -/
structure PairTree where
  pairs : Array Pair

namespace PairTree

variable (t : PairTree)

def empty : PairTree := ⟨#[]⟩

def size (t : PairTree) : Nat := t.pairs.size

/-- The pair of that number, or a bare one if there is none. -/
def get (id : PairId) : Pair := t.pairs.getD id default

/-- Stores a detached pair under the next number. -/
def add (pair : Pair) : PairId × PairTree := (t.pairs.size, ⟨t.pairs.push pair⟩)

def modify (t : PairTree) (id : PairId) (f : Pair → Pair) : PairTree := ⟨t.pairs.modify id f⟩

def kind (t : PairTree) (id : PairId) : Kind := (t.get id).kind

def children (t : PairTree) (id : PairId) : List PairId := (t.get id).children

def parent? (id : PairId) : Option PairId := (t.get id).parent

def contentChildren (id : PairId) : List PairId := (t.children id).filter fun c => !(t.kind c).isComment

def choiceChildren (id : PairId) : List PairId := (t.children id).filter fun c => (t.get c).isChoice

/-- The chain of parents from `next` on, for up to `length` steps. -/
def chain (t : PairTree) : (length : Nat) → (next : Option PairId) → List PairId
  | 0, _ => []
  | _ + 1, none => []
  | n + 1, some id => id :: t.chain n (t.parent? id)

/-- The parent, its parent and so on. No such chain is longer than the tree. -/
def ancestors (id : PairId) : List PairId := t.chain t.size (t.parent? id)

/-- The pre-order of what hangs from a pair, down to the given depth. -/
def preorderTo (t : PairTree) : (depth : Nat) → PairId → List PairId
  | 0, _ => []
  | n + 1, id => id :: (t.get id).held.flatMap (t.preorderTo n)

/-- A pair, then all below its children, then all below its value's parts. No
    branch is deeper than the tree is large. -/
def preorder (id : PairId) : List PairId := t.preorderTo t.size id

/-- Whether pairs may be appended to this one. -/
def acceptsChildren (id : PairId) : Bool :=
  let pair := t.get id
  !pair.kind.isComment && !pair.kind.isNamespaceDefinition && pair.valueKind != .pairValue && !pair.delimiter.isValue

/-- Whether a pair holds something that a namespace definition must precede. -/
def hasContent (id : PairId) : Bool :=
  (t.children id).any fun c => !(t.kind c).isComment && !(t.kind c).isNamespaceDefinition

/-- Makes `child` the last child of `parent`. Comments may be put anywhere, and
    namespace definitions only before everything else. -/
def append (parent child : PairId) : Except Fault PairTree :=
  let pair := t.get parent
  let new := t.get child
  if !new.kind.isComment && !t.acceptsChildren parent then
    .error (.childrenNotAllowed pair.kind.name pair.span.start.line pair.span.start.column)
  else if new.kind.isNamespaceDefinition && t.hasContent parent then
    .error (.namespaceDefinitionOutOfOrder new.nameText new.span.start.line new.span.start.column)
  else
    let isChoice := new.isChoice || (pair.delimiter.isChoice && !new.kind.isComment)
    let attached := t.modify child fun p => { p with parent := some parent, isChoice }
    .ok (attached.modify parent fun p => { p with children := p.children ++ [child] })

def setParents (ids : List PairId) (parent : Option PairId) : PairTree :=
  ids.foldl (fun tree id => tree.modify id fun p => { p with parent }) t

/-- Makes the value of `owner` that of `reference`. -/
def setValueReference (owner reference : PairId) : PairTree :=
  (t.setParents [reference] (some owner)).modify owner fun p =>
    { p with children := p.children ++ [reference], valueKind := .pairValue }

def setItems (owner : PairId) (items : List PairId) : PairTree :=
  (t.setParents items (some owner)).modify owner fun p => { p with items := some items }

def takeChildren (id : PairId) : List PairId × PairTree :=
  let children := t.children id
  (children, (t.modify id fun p => { p with children := [] }).setParents children none)

/-- Appends detached pairs without looking at their kinds. -/
def adoptChildren (parent : PairId) (children : List PairId) : PairTree :=
  (t.setParents children (some parent)).modify parent fun p =>
    { p with children := p.children ++ children }

def enclosingDefinition? (id : PairId) : Option PairId := (t.ancestors id).find? fun a => (t.kind a).isAliasDefinition

def enclosingDocument? (id : PairId) : Option PairId := (t.ancestors id).find? fun a => (t.kind a).isDocument

end PairTree

end PairMarkup
