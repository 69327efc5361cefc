import PairMarkup.Tree

namespace PairMarkup

/-- The modules that are compiled together, in order, over one tree. -/
structure ModuleSet where
  tree : PairTree
  modules : List PairId

namespace ModuleSet

variable (set : ModuleSet)

def empty : ModuleSet := ⟨.empty, []⟩

/-- Adds an empty module. Its place among the modules is its file index. -/
def addModule (file : String) (format : Format) : PairId × ModuleSet :=
  let pair := Pair.bare (.moduleRoot format) default file set.modules.length
  let (id, tree) := set.tree.add { pair with name := some file }
  (id, ⟨tree, set.modules ++ [id]⟩)

def format? (id : PairId) : Option Format :=
  match set.tree.pairs[id]? with
  | some pair =>
    match pair.kind with
    | .moduleRoot format => some format
    | _ => none
  | none => none

def documents (id : PairId) : List PairId := (set.tree.children id).filter fun c => (set.tree.kind c).isDocument

def moduleOfFile? (file : String) : Option PairId := set.modules.find? fun id => (set.tree.get id).file = file

/-- All pairs that hang from the modules, module by module, in pre-order. -/
def reachable : List PairId := set.modules.flatMap set.tree.preorder

end ModuleSet

end PairMarkup
