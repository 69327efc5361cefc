import PairMarkup.Reporting.Basic
import PairMarkup.Resolution.Walk

namespace PairMarkup.Reporting

section

variable (branch : Option Branch) (p : Progress)

def reportAbout (code : Code) (arguments : List String) (subject : PairId) (span : Span) : Reporting Progress := do
  report (p.diagnostic code arguments subject span)
  return p.report branch code arguments subject span

def reportName (code : Code) (subject : PairId) : Reporting Progress :=
  let pair := p.tree.get subject
  reportAbout branch p code [pair.nameText] subject pair.nameSpan

def announce (id : PairId) : Reporting Progress :=
  if !p.tree.declares id || p.announced.contains id then return p
  else do
    let namespaces := p.tree.repeated (p.tree.namespaceDefinitions id)
    let aliases := p.tree.repeated (p.tree.hoisted id)
    let p ← namespaces.foldlM (fun p d => reportName branch p .duplicateNamespaceDefinition d) p
    let p ← aliases.foldlM (fun p d => reportName branch p .duplicateAliasDefName d) p
    return { p with announced := id :: p.announced }

def bindNamespace (scope : Scope) (id : PairId) : Reporting Progress :=
  let pair := p.tree.get id
  match pair.nsPrefix.filter fun before => (scope.namespaceFor? before).isNone with
  | some before => reportAbout branch p .namespacePrefixNotDefined [before] id pair.nameSpan
  | none => return p.bindNamespace branch scope id

def bindParameter (id : PairId) : Reporting Progress :=
  if (p.tree.enclosingDefinition? id).isNone then reportName branch p .parameterMustBeDefinedInAliasDefinition id
  else return p.bindParameter branch id

def checkArgumentPlace (id : PairId) : Reporting Progress :=
  if (p.tree.parent? id).any fun parent => (p.tree.kind parent).isAliasUsage then return p
  else reportName branch p .argumentMustBeDefinedInAlias id

def checkRoots (id : PairId) : Reporting Progress :=
  let roots := (p.tree.contentChildren id).filter fun c =>
    !(p.tree.kind c).isNamespaceDefinition && !(p.tree.kind c).isAliasDefinition
  match p.formatOf id, roots with
  | .xml, _ :: second :: _ =>
    reportAbout branch p .documentMustHaveOneRootElement [(p.tree.get id).nameText] second (p.tree.get second).span
  | _, _ => return p

def checkArguments (usage definition : PairId) : Reporting Progress :=
  (p.tree.usageComplaints usage definition).foldlM
    (fun p c => reportAbout branch p c.code c.arguments c.subject c.span) p

def markCircular (id : PairId) : Reporting Progress :=
  match (p.tree.get id).kind with
  | .aliasDefinition info =>
    if info.isCircular then return p
    else
      reportName branch (p.modify id (Pair.mapInfo ({ · with isCircular := true }))) .aliasDefHasCircularReference id
  | _ => return p

def recordSignature (id : PairId) : Reporting Progress :=
  let recorded := p.withSignature id
  match p.tree.conflictingDefault? id with
  | some parameter =>
    reportAbout branch recorded .defaultParameterMustBeOnly [(recorded.tree.get id).nameText] parameter
      (recorded.tree.get parameter).span
  | none => return recorded

def openDefinition (id : PairId) : Reporting Progress := do
  let p ← recordSignature branch { p with entered := id :: p.entered, deferred := some [] } id
  announce branch p id

def beginPair (id : PairId) : Reporting Progress :=
  announce branch ({ p with handled := id :: p.handled }.splitScope id) id

end

/-- How to go on with a pair from within another one. -/
abbrev Walk := Context → PairId → Progress → Reporting Progress

section

variable (walk : Walk) (context : Context) (id : PairId) (p : Progress)

def walkHeld : Reporting Progress :=
  (Progress.visits p.tree context id).foldlM (fun p visit => walk visit.1 visit.2 p) p

def enterDefinition : Reporting Progress :=
  if p.entered.contains id then return p
  else do
    let outer := p.deferred
    let p ← openDefinition context.branch p id
    let p ← walkHeld walk (context.inside p.tree id) id p
    let nested := p.deferred.getD []
    let p ← nested.foldlM (fun p d => walk (context.resume d) d.definition p) { p with deferred := none }
    return { p.settleValueKind id with deferred := outer }

def announceAround (branch : Option Branch) (definition : PairId) : Reporting Progress :=
  match p.tree.parent? definition with
  | none => return p
  | some parent => (p.tree.pathTo parent).foldlM (announce branch) p

def bindUsage : Reporting Progress :=
  match context.scope.aliasFor? (p.tree.get id).nameText with
  | none => reportName context.branch p .aliasIsNotDefined id
  | some definition => do
    let p := p.tie id definition
    let p ←
      if context.chain.contains definition then
        (context.chain.dropWhile (· ≠ definition)).foldlM (markCircular context.branch) p
      else if p.entered.contains definition then pure p
      else do
        let p ← announceAround p context.branch definition
        enterDefinition walk (context.around p.tree definition) definition p
    checkArguments context.branch p id definition

def noteKind (branch : Option Branch) (inner : Scope) : Reporting Progress :=
  match p.tree.kind id with
  | .element | .attr | .scope => bindNamespace branch p inner id
  | .parameter _ _ => bindParameter branch p id
  | .argument => checkArgumentPlace branch p id
  | .document _ _ => checkRoots branch p id
  | .moduleRoot _ | .aliasDefinition _ | .aliasUsage _ | .namespaceDefinition | .comment => return p

def handle : Reporting Progress := do
  let p ← beginPair context.branch p id
  let inner := p.tree.enter id context.scope
  let p ←
    if (p.tree.kind id).isAliasUsage then bindUsage walk context id p
    else noteKind id p context.branch inner
  let p ← walkHeld walk { context with scope := p.tree.openScope id inner } id p
  return p.settleValueKind id

def step : Reporting Progress :=
  if (p.tree.kind id).isAliasDefinition then
    match p.deferred with
    | some deferred => return { p with deferred := some (deferred ++ [⟨id, context.scope, context.branch⟩]) }
    | none => enterDefinition walk { context with chain := [] } id p
  else handle walk context id p

end

def walkTo : (depth : Nat) → Walk
  | 0, _, _, p => return p
  | n + 1, context, id, p => step (walkTo n) context id p

/-- Walks over all modules, and gives what has become of them. -/
def resolve (set : ModuleSet) : Reporting ModuleSet := do
  let root := set.globalScope
  let p ← set.modules.foldlM (announce none) (.initial set)
  let p ← set.modules.foldlM (fun p id => walkTo (2 * set.tree.size + 2) ⟨root, root, [], none⟩ id p) p
  return p.set

end PairMarkup.Reporting
