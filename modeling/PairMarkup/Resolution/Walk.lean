import PairMarkup.Resolution.Usage

namespace PairMarkup

namespace Context

variable (context : Context)

/-- In the body of an alias definition that is entered from here. -/
def inside (tree : PairTree) (id : PairId) : Context :=
  { context with scope := tree.enter id context.scope, chain := context.chain ++ [id] }

/-- At a definition that was left for later, as if it were the first. -/
def resume (d : Deferred) : Context := { context with scope := d.scope, branch := d.branch, chain := [] }

/-- At a definition that is entered through a usage here. -/
def around (tree : PairTree) (definition : PairId) : Context :=
  { context with scope := tree.scopeAround context.root definition }

end Context

/-- How to go on with a pair from within another one. -/
abbrev Walk := Context → PairId → Progress → Progress

namespace Progress

variable (walk : Walk) (branch : Option Branch)

/-- The document in whose choices a pair is entered. -/
def trackedIn? (tree : PairTree) (id : PairId) : Option PairId :=
  if (tree.get id).delimiter.isChoice then
    (tree.enclosingDocument? id).filter fun document =>
      match tree.kind document with
      | .document choices _ => (choices.find? id).isSome
      | _ => false
  else none

/-- Where to go on below a pair: with its children, each alternative of a choice on
    its own branch, and then with the parts of its value. -/
def visits (tree : PairTree) (context : Context) (id : PairId) : List (Context × PairId) :=
  let document := trackedIn? tree id
  let children := (tree.children id).map fun child =>
    let branch := if (tree.get child).isChoice then document.map (⟨·, id, child⟩) else none
    ({ context with branch := branch.or context.branch }, child)
  children ++ ((tree.get id).items.getD []).map (context, ·)

/-- Goes on with what a pair holds. -/
def walkHeld (context : Context) (id : PairId) (p : Progress) : Progress :=
  (visits p.tree context id).foldl (fun p visit => walk visit.1 visit.2 p) p

/-- Notes that an alias definition is entered, what it takes and what it brings in.
    Nothing is left for later in it yet. -/
def openDefinition (id : PairId) (p : Progress) : Progress :=
  let p := { p with entered := id :: p.entered, deferred := some [] }.recordSignature branch id
  p.announce branch id

/-- Walks the body of an alias definition, unless that was done. Definitions
    nested in it come after it, each as if it were the first. -/
def enterDefinition (context : Context) (id : PairId) (p : Progress) : Progress :=
  if p.entered.contains id then p
  else
    let outer := p.deferred
    let p := p.openDefinition context.branch id
    let p := walkHeld walk (context.inside p.tree id) id p
    let nested := p.deferred.getD []
    let p := nested.foldl (fun p d => walk (context.resume d) d.definition p) { p with deferred := none }
    { p.settleValueKind id with deferred := outer }

/-- Marks the chain as circular from a definition on. -/
def closeCircle (context : Context) (definition : PairId) (p : Progress) : Progress :=
  (context.chain.dropWhile (· ≠ definition)).foldl (markCircular context.branch) p

/-- Reports the duplicates among the names that are known around a definition. -/
def announceAround (definition : PairId) (p : Progress) : Progress :=
  match p.tree.parent? definition with
  | none => p
  | some parent => (p.tree.pathTo parent).foldl (announce branch) p

/-- Ties an alias usage to its definition. The definition is entered from here if
    it was not before, and if it is on the chain that led here, the chain is
    circular from there on. -/
def bindUsage (context : Context) (id : PairId) (p : Progress) : Progress :=
  match context.scope.aliasFor? (p.tree.get id).nameText with
  | none => p.reportName context.branch .aliasIsNotDefined id
  | some definition =>
    let p := p.tie id definition
    let p :=
      if context.chain.contains definition then p.closeCircle context definition
      else if p.entered.contains definition then p
      else
        let p := p.announceAround context.branch definition
        enterDefinition walk (context.around p.tree definition) definition p
    p.checkArguments context.branch id definition

/-- Does what the kind of a pair asks for, the tie of an alias usage excepted. -/
def noteKind (inner : Scope) (id : PairId) (p : Progress) : Progress :=
  match p.tree.kind id with
  | .element | .attr | .scope => p.bindNamespace branch inner id
  | .parameter _ _ => p.bindParameter branch id
  | .argument => p.checkArgumentPlace branch id
  | .document _ _ => p.checkRoots branch id
  | .moduleRoot _ | .aliasDefinition _ | .aliasUsage _ | .namespaceDefinition | .comment => p

/-- Notes that a pair is handled and what it brings in. -/
def beginPair (id : PairId) (p : Progress) : Progress :=
  let p := { p with handled := id :: p.handled }.splitScope id
  p.announce branch id

/-- Handles a pair other than an alias definition. -/
def handle (context : Context) (id : PairId) (p : Progress) : Progress :=
  let p := p.beginPair context.branch id
  let inner := p.tree.enter id context.scope
  let p :=
    if (p.tree.kind id).isAliasUsage then bindUsage walk context id p
    else p.noteKind context.branch inner id
  let p := walkHeld walk { context with scope := p.tree.openScope id inner } id p
  p.settleValueKind id

/-- One step of the walk. Inside of a body an alias definition is left for later. -/
def step (context : Context) (id : PairId) (p : Progress) : Progress :=
  if (p.tree.kind id).isAliasDefinition then
    match p.deferred with
    | some deferred =>
      { p with deferred := some (deferred ++ [⟨id, context.scope, context.branch⟩]) }
    | none => enterDefinition walk { context with chain := [] } id p
  else handle walk context id p

/-- The walk from a pair on, no deeper than the given depth. -/
def walkTo : (depth : Nat) → Walk
  | 0, _, _, p => p
  | n + 1, context, id, p => step (walkTo n) context id p

def initial (set : ModuleSet) : Progress := ⟨set, [], [], [], [], none⟩

/-- Walks over all modules. Every pair is met once, and every scope adds one pair
    at most, which bounds the depth. -/
def run (set : ModuleSet) : Progress :=
  let root := set.globalScope
  let p := set.modules.foldl (announce none) (initial set)
  set.modules.foldl (fun p id => walkTo (2 * set.tree.size + 2) ⟨root, root, [], none⟩ id p) p

end Progress

/-- Ties aliases, parameters and namespace prefixes to what they stand for. -/
def ModuleSet.resolve (set : ModuleSet) : ModuleSet × List Finding :=
  let p := Progress.run set
  (p.set, p.findings)

end PairMarkup
