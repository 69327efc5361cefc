import PairMarkup.Expansion
import PairMarkup.FileTree
import PairMarkup.Session

namespace PairMarkup

/-- Modules that were read and resolved, with all diagnostics in order. -/
structure Compilation where
  set : ModuleSet
  diagnostics : List Diagnostic

namespace Compilation

def hasErrors (c : Compilation) : Bool := !c.diagnostics.isEmpty

def summary (c : Compilation) : String := PairMarkup.summary c.set.modules.length c.diagnostics.length

def ofSources (options : Options) (sources : List Source) : Except Stopped Compilation := do
  let parsed ← (Session.start (some options.maxErrors)).parseAll sources
  let resolved ← parsed.resolve
  return ⟨resolved.set, resolved.collection.sorted⟩

/-- Reads a file in the format that its name tells. -/
def readSource (storage : Storage) (options : Options) (path : String) : Except Failure Source :=
  match storage.read path with
  | .ok text => .ok ⟨path, options.formatOf path, text.toList⟩
  | .error reason => .error (.unreadableInput path reason)

/-- Compiles files and directories. All files are read before the first is parsed. -/
def ofPaths (storage : Storage) (options : Options) (paths : List String) : Except Failure Compilation := do
  let inputs ← storage.inputs options paths
  let sources ← inputs.mapM (readSource storage options)
  (ofSources options sources).mapError (·.failure)

end Compilation

end PairMarkup
