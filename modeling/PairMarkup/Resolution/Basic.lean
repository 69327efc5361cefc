import PairMarkup.Scope
import PairMarkup.Signature

namespace PairMarkup

/-- An alternative of a choice that is entered in the choices of a document. -/
structure Branch where
  document : PairId
  choice : PairId
  alternative : PairId
deriving DecidableEq

/-- A diagnostic and the pair that it is about. -/
structure Finding where
  subject : PairId
  diagnostic : Diagnostic
deriving DecidableEq

/-- A nested alias definition that is looked into after the body around it. -/
structure Deferred where
  definition : PairId
  scope : Scope
  branch : Option Branch
deriving DecidableEq

/-- Where the walk over the pairs is. -/
structure Context where
  /-- What all modules know. -/
  root : Scope
  scope : Scope
  /-- The alias definitions that were entered through one another's usages,
      outermost first. -/
  chain : List PairId
  branch : Option Branch

/-- How far the walk over the pairs has come. -/
structure Progress where
  set : ModuleSet
  findings : List Finding
  /-- The pairs whose names were looked at for duplicates. -/
  announced : List PairId
  /-- The alias definitions that were entered, latest first. -/
  entered : List PairId
  /-- The other pairs that were handled, latest first. -/
  handled : List PairId
  /-- The definitions left for later inside of a body, none outside of any. -/
  deferred : Option (List Deferred)

namespace Progress

variable (p : Progress)

def tree (p : Progress) : PairTree := p.set.tree

def setTree (tree : PairTree) : Progress := { p with set := { p.set with tree } }

def modify (p : Progress) (id : PairId) (f : Pair → Pair) : Progress := p.setTree (p.tree.modify id f)

/-- Notes a diagnostic in the choices of the document that the branch is in. -/
def recordOn (tree : PairTree) (branch : Branch) (diagnostic : Diagnostic) : PairTree :=
  tree.modify branch.document <| Pair.mapChoices fun choices =>
    (choices.record? branch.choice branch.alternative diagnostic).getD choices

def diagnostic (code : Code) (arguments : List String) (subject : PairId) (span : Span) : Diagnostic :=
  let pair := p.tree.get subject
  .of code arguments pair.file pair.fileIndex span .resolve

def report (branch : Option Branch) (code : Code) (arguments : List String)
    (subject : PairId) (span : Span) : Progress :=
  let diagnostic := p.diagnostic code arguments subject span
  let p :=
    match branch with
    | some branch => p.setTree (recordOn p.tree branch diagnostic)
    | none => p
  { p with findings := p.findings ++ [⟨subject, diagnostic⟩] }

def reportName (branch : Option Branch) (code : Code) (subject : PairId) : Progress :=
  let pair := p.tree.get subject
  p.report branch code [pair.nameText] subject pair.nameSpan

/-- Reports the duplicates among the names that a pair brings in, the first time
    that it is entered. -/
def announce (branch : Option Branch) (p : Progress) (id : PairId) : Progress :=
  if !p.tree.declares id || p.announced.contains id then p
  else
    let namespaces := p.tree.repeated (p.tree.namespaceDefinitions id)
    let aliases := p.tree.repeated (p.tree.hoisted id)
    let p := namespaces.foldl (fun p d => p.reportName branch .duplicateNamespaceDefinition d) p
    let p := aliases.foldl (fun p d => p.reportName branch .duplicateAliasDefName d) p
    { p with announced := id :: p.announced }

end Progress

end PairMarkup
