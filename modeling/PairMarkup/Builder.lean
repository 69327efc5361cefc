import PairMarkup.Dialect
import PairMarkup.Line.Reader
import PairMarkup.ModuleSet
import PairMarkup.Path

namespace PairMarkup

/-- The module that lines are put into. -/
structure Site where
  root : PairId
  format : Format
  file : String
  fileIndex : Nat

/-- A tree in the making. -/
structure Builder where
  tree : PairTree
  /-- The pairs that the next line may be put into, the module first. -/
  blocks : List PairId
  log : List Diagnostic

/-- A fault that ends the work on a module, and what was found before it. -/
structure Halt where
  fault : Fault
  log : List Diagnostic

def Note.reported (file : String) (fileIndex : Nat) (note : Note) : Diagnostic :=
  .of note.code note.arguments file fileIndex note.span .parse

def Site.commentPair (site : Site) (comment : Comment) : Pair :=
  { Pair.bare .comment comment.span site.file site.fileIndex with
    value := some comment.text
    valueKind := .openString }

namespace Builder

variable (b : Builder)

def report (site : Site) (note : Note) : Builder :=
  { b with log := b.log ++ [note.reported site.file site.fileIndex] }

def reportAll (site : Site) (notes : List Note) : Builder := notes.foldl (fun b note => b.report site note) b

def add (b : Builder) (pair : Pair) : PairId × Builder :=
  let (id, tree) := b.tree.add pair
  (id, { b with tree })

def modify (b : Builder) (id : PairId) (f : Pair → Pair) : Builder := { b with tree := b.tree.modify id f }

/-- Appends a pair, or ends with the fault. -/
def append (b : Builder) (parent child : PairId) : Except Halt Builder :=
  match b.tree.append parent child with
  | .ok tree => .ok { b with tree }
  | .error fault => .error ⟨fault, b.log⟩

/-- A detached element that takes in what has no other place. -/
def addOrphan (site : Site) (position : Position) : PairId × Builder :=
  b.add (.bare .element (.point position) site.file site.fileIndex)

def blockNotExpected (id : PairId) (span : Span) : Note :=
  let pair := b.tree.get id
  .mk .blockIsNotExpected [pair.kind.name, pair.qualifiedName] span

def addComment (site : Site) (parent : PairId) (comment : Comment) : Except Halt Builder :=
  let (id, b) := (b.reportAll site comment.notes).add (site.commentPair comment)
  b.append parent id

/-- What may stand directly in a module. -/
def isTopLevel (kind : Kind) : Bool :=
  kind.isDocument || kind.isAliasDefinition || kind.isNamespaceDefinition || kind.isComment

def isImplicitDocument : Kind → Bool
  | .document _ implicit => implicit
  | _ => false

/-- A document that is named for the file. -/
def implicitPair (site : Site) (span : Span) : Pair :=
  { Pair.bare (.document .empty true) span site.file site.fileIndex with
    name := some ((Path.fileStem? (b.tree.get site.root).file).getD "document")
    delimiter := .colon
    valueKind := .object }

/-- The last implicit document of the module. If there is none, one is added. -/
def implicitDocument (site : Site) (span : Span) : Except Halt (PairId × Builder) :=
  match (b.tree.children site.root).reverse.find? fun id => isImplicitDocument (b.tree.kind id) with
  | some id => .ok (id, b)
  | none => do
    let (id, b) := b.add (b.implicitPair site span)
    let b ← b.append site.root id
    return (id, b)

/-- Enters a pair into the choices of its document, below the choice that
    encloses it there. -/
def registerChoice (tree : PairTree) (id : PairId) : PairTree :=
  match tree.enclosingDocument? id with
  | none => tree
  | some document =>
    let enclosing := ((tree.ancestors id).takeWhile (· ≠ document)).find? fun a =>
      (tree.get a).delimiter.isChoice
    tree.modify document (Pair.mapChoices (·.insert enclosing id))

/-- Where a pair is to be put: in a module it goes into the implicit document, unless
    it may stand there by itself. -/
def redirect (site : Site) (parent child : PairId) : Except Halt (PairId × Builder) :=
  let new := b.tree.get child
  if parent = site.root && !isTopLevel new.kind then b.implicitDocument site new.span
  else .ok (parent, b)

/-- Puts a pair whose head ends at `position` into another one. Where no pair may be
    put, it is reported and left outside of the tree. -/
def place (site : Site) (parent child : PairId) (position : Position) : Except Halt Builder :=
  let new := b.tree.get child
  match b.tree.append parent child with
  | .ok tree =>
    .ok { b with tree := if new.delimiter.isChoice then registerChoice tree child else tree }
  | .error (.namespaceDefinitionOutOfOrder name line column) =>
    .error ⟨.namespaceDefinitionOutOfOrder name line column, b.log⟩
  | .error (.childrenNotAllowed _ _ _) =>
    let b := b.report site (b.blockNotExpected parent new.span)
    let (orphan, b) := b.addOrphan site position
    b.append orphan child

def attach (site : Site) (parent child : PairId) (position : Position) : Except Halt Builder := do
  let (parent, b) ← b.redirect site parent child
  b.place site parent child position

def addReference (site : Site) (owner : PairId) (found : Reference) : PairId × Builder :=
  b.add (site.format.makePair site.file site.fileIndex b.tree ⟨owner, true, false⟩ found.head)

/-- Makes the pairs of the references of a quoted text, in order. -/
def addReferences (b : Builder) (site : Site) (owner : PairId) : List Segment → List PairId × Builder
  | [] => ([], b)
  | .text _ _ :: segments => b.addReferences site owner segments
  | .reference found :: segments =>
    let (id, b) := b.addReference site owner found
    let (ids, b) := b.addReferences site owner segments
    (id :: ids, b)

/-- Makes the pairs of the texts between references, and lists them together with
    the references, in order. -/
def addTexts (b : Builder) (site : Site) : List Segment → List PairId → List PairId × Builder
  | [], _ => ([], b)
  | .text content span :: segments, references =>
    let pair :=
      { Pair.bare .element span site.file site.fileIndex with
        value := some content
        valueKind := .doubleQuoted }
    let (id, b) := b.add pair
    let (ids, b) := b.addTexts site segments references
    (id :: ids, b)
  | .reference _ :: segments, references =>
    let (ids, b) := b.addTexts site segments references.tail
    (references.take 1 ++ ids, b)

def setText (id : PairId) (content : String) (kind : ValueKind) : Builder :=
  b.modify id fun pair => { pair with value := some content, valueKind := kind }

def setValue (site : Site) (owner : PairId) : Value → Builder
  | .text content kind => b.setText owner content kind
  | .bare content => b.setText owner content (site.format.openValueKind content)
  | .reference found =>
    let (id, b) := b.addReference site owner found
    { b with tree := b.tree.setValueReference owner id }
  | .segments parts _ =>
    let (references, b) := b.addReferences site owner parts
    let (ids, b) := b.addTexts site parts references
    { b with tree := b.tree.setItems owner ids }.modify owner fun pair =>
      { pair with valueKind := .concatenation }

/-- How far a line has come. -/
structure LineState where
  /-- The pairs that the next pair may be put into, the block of the line first. -/
  levels : List PairId
  /-- The number of levels at the beginning of each open group, innermost first. -/
  groups : List Nat
  /-- The number of levels that the last pair was put below. -/
  lastLevel : Nat
  isChained : Bool
  current : Option PairId

namespace LineState

variable (state : LineState)

def initial (block : PairId) : LineState := ⟨[block], [], 1, false, none⟩

/-- The pair that the next pair is put into. -/
def container (block : PairId) : PairId := state.levels.getLast?.getD block

/-- A separator leads back to the level of the pair before it, but not out of
    the group. -/
def separate : LineState :=
  if state.isChained then
    { state with levels := state.levels.take (max state.lastLevel (state.groups.head?.getD 1)) }
  else state

def openGroup : LineState := { state with groups := state.levels.length :: state.groups }

/-- Behind a group the levels are those at its beginning. -/
def closeGroup : LineState :=
  match state.groups with
  | [] => state
  | length :: groups =>
    let levels := state.levels.take length
    { levels
      groups
      lastLevel := max (length - 1) 1
      isChained := state.isChained
      current := if state.isChained && 1 < levels.length then levels.getLast? else state.current }

/-- A pair that has a block or a group behind it is a new level. -/
def enter (id : PairId) (item : PairItem) : LineState :=
  let state := { state with lastLevel := state.levels.length, current := some id }
  if item.head.delimiter.isBlock || item.opensGroup then
    { state with levels := state.levels ++ [id], isChained := true }
  else state

end LineState

variable (b : Builder) (site : Site)

/-- The pair that an item of a line makes, before it is put anywhere. -/
def pairFor (site : Site) (parent : PairId) (inGroup : Bool) (head : Head) : Pair :=
  site.format.makePair site.file site.fileIndex b.tree
    ⟨parent, false, inGroup && (b.tree.kind parent).isAliasUsage⟩ head

def addPair (site : Site) (parent : PairId) (inGroup : Bool) (item : PairItem) : Except Halt (PairId × Builder) := do
  let (id, b) := b.add (b.pairFor site parent inGroup item.head)
  let b ← b.attach site parent id item.head.span.stop
  let b := b.reportAll site item.notes
  let b := item.value.elim b (b.setValue site id)
  return (id, b.modify id fun pair => { pair with span := ⟨pair.span.start, item.stop⟩ })

def addItem (block : PairId) (b : Builder) (state : LineState) : Item → Except Halt (Builder × LineState)
  | .separator => .ok (b, state.separate)
  | .openGroup => .ok (b, state.openGroup)
  | .closeGroup => .ok (b, state.closeGroup)
  | .note note => .ok (b.report site note, state)
  | .comment comment => do
    let b ← b.addComment site (state.container block) comment
    return (b, state)
  | .pair item => do
    let (id, b) ← b.addPair site (state.container block) (!state.groups.isEmpty) item
    return (b, state.enter id item)

def addItems (block : PairId) (b : Builder) (items : List Item) : Except Halt (Builder × LineState) :=
  items.foldlM (fun (b, state) item => b.addItem site block state item) (b, .initial block)

/-- The block at a depth, or the module if that block is not open. -/
def blockAt (site : Site) (depth : Nat) : PairId := b.blocks[depth]?.getD site.root

/-- The block that a line is put into. If that takes no pairs, the line is reported
    and left outside of the tree. -/
def lineBlock (site : Site) (depth : Nat) (lead : Span) : PairId × Builder :=
  let block := b.blockAt site depth
  if 0 < depth && !b.tree.acceptsChildren block then
    (b.report site (b.blockNotExpected block lead)).addOrphan site lead.stop
  else (block, b)

def addLine (b : Builder) : Line → Except Halt Builder
  | .comments depth comments =>
    comments.foldlM (fun b comment => b.addComment site (b.blockAt site depth) comment) b
  | .rejected note => .ok (b.report site note)
  | .content depth lead items => do
    let (block, b) := b.lineBlock site depth lead
    let (b, state) ← b.addItems site block items
    return { b with blocks := b.blocks.take depth ++ [block] ++ state.current.toList }

/-- A parameter among the parts of a value stands in place of a value. -/
def toValuePlace (pair : Pair) : Pair :=
  match pair.kind with
  | .parameter definition _ => { pair with kind := .parameter definition .value }
  | _ => pair

/-- The children of a pair that is put together become the parts of its value,
    comments excepted. -/
def gatherItems (tree : PairTree) (id : PairId) : PairTree :=
  let (children, tree) := tree.takeChildren id
  let (comments, items) := children.partition fun c => (tree.kind c).isComment
  let tree := items.foldl (fun tree item => tree.modify item toValuePlace) tree
  ((tree.adoptChildren id comments).setItems id items).modify id fun pair =>
    { pair with valueKind := .concatenation }

/-- What can be said of a pair only when all of its block is known. -/
def finishPair (tree : PairTree) (id : PairId) : PairTree :=
  let pair := tree.get id
  if pair.delimiter = .colonEqual && pair.items.isNone then gatherItems tree id
  else if pair.delimiter = .none && pair.valueKind = .none && !pair.kind.isModule &&
      !(tree.contentChildren id).isEmpty then
    tree.modify id fun pair => { pair with valueKind := .object }
  else tree

def finish (site : Site) : Builder := { b with tree := (b.tree.preorder site.root).foldl finishPair b.tree }

end Builder

/-- What work on the sources has found, and its result. -/
structure Logged (α : Type) where
  log : List Diagnostic
  result : Except Fault α

def ModuleSet.parse (set : ModuleSet) (file : String) (format : Format) (text : List Char) : Logged ModuleSet :=
  let (root, set) := set.addModule file format
  let site : Site := ⟨root, format, file, (set.tree.get root).fileIndex⟩
  let start : Builder := ⟨set.tree, [root], []⟩
  match (Line.ofText text).foldlM (Builder.addLine site) start with
  | .ok b => ⟨b.log, .ok { set with tree := (b.finish site).tree }⟩
  | .error halt => ⟨halt.log, .error halt.fault⟩

end PairMarkup
