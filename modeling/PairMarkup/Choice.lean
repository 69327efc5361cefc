import PairMarkup.Diagnostic.Basic
import PairMarkup.Pair.Vocabulary

namespace PairMarkup

/-- A diagnostic that belongs to one alternative of a choice. -/
structure BranchError where
  branch : PairId
  diagnostic : Diagnostic
deriving DecidableEq

/-- The choices of a document, nested as they are written, with the diagnostics
    of their alternatives. The root stands for no choice. -/
inductive ChoiceTree where
  | node (choice : Option PairId) (children : List ChoiceTree) (errors : List BranchError)

namespace ChoiceTree

def empty : ChoiceTree := node none [] []

instance : Inhabited ChoiceTree := ⟨empty⟩

def choice : ChoiceTree → Option PairId
  | node choice _ _ => choice

def children : ChoiceTree → List ChoiceTree
  | node _ children _ => children

def errors : ChoiceTree → List BranchError
  | node _ _ errors => errors

mutual

/-- The first subtree, in pre-order, whose root is `id`. -/
def find? (id : PairId) : ChoiceTree → Option ChoiceTree
  | node choice children errors =>
    if choice = some id then some (node choice children errors) else findAmong? id children

/-- The first subtree below any of the given trees whose root is `id`. -/
def findAmong? (id : PairId) : List ChoiceTree → Option ChoiceTree
  | [] => none
  | tree :: trees => (find? id tree).or (findAmong? id trees)

end

mutual

/-- Changes the subtree that `find?` gives. There is no result if it gives none. -/
def update? (id : PairId) (f : ChoiceTree → ChoiceTree) : ChoiceTree → Option ChoiceTree
  | node choice children errors =>
    if choice = some id then some (f (node choice children errors))
    else (updateAmong? id f children).map (node choice · errors)

def updateAmong? (id : PairId) (f : ChoiceTree → ChoiceTree) : List ChoiceTree → Option (List ChoiceTree)
  | [] => none
  | tree :: trees =>
    match update? id f tree with
    | some changed => some (changed :: trees)
    | none => (updateAmong? id f trees).map (tree :: ·)

end

/-- Adds a choice without alternatives as the last child of the root. -/
def addChild (id : PairId) : ChoiceTree → ChoiceTree
  | node choice children errors => node choice (children ++ [node (some id) [] []]) errors

def addError (error : BranchError) : ChoiceTree → ChoiceTree
  | node choice children errors => node choice children (errors ++ [error])

def clearErrors : ChoiceTree → ChoiceTree
  | node choice children _ => node choice children []

/-- Adds a choice below the one that encloses it, or below the root if there is
    none or it is unknown. -/
def insert (tree : ChoiceTree) (enclosing : Option PairId) (id : PairId) : ChoiceTree :=
  (enclosing.bind fun e => tree.update? e (addChild id)).getD (tree.addChild id)

/-- Notes a diagnostic of one alternative of a choice. There is no result if the
    choice is unknown. -/
def record? (tree : ChoiceTree) (id branch : PairId) (diagnostic : Diagnostic) : Option ChoiceTree :=
  tree.update? id (addError ⟨branch, diagnostic⟩)

mutual

def count : ChoiceTree → Nat
  | node _ children _ => countAmong children

def countAmong : List ChoiceTree → Nat
  | [] => 0
  | tree :: trees => 1 + count tree + countAmong trees

end

end ChoiceTree

end PairMarkup
