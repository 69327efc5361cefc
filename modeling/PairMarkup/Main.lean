import PairMarkup.CommandLine

namespace PairMarkup

/-- Reads a file, or a directory with what can be read in it down to a depth, or tells why
    that is not possible. -/
def readEntry (depth : Nat) (path : String) : IO (Except ReadError FileTree) := do
  try
    return .ok (.file (← IO.FS.readBinFile path))
  catch
    | .inappropriateType _ code _ =>
      if code ≠ 21 then return .error .notDirectory
      match depth with
      | 0 => return .error .isDirectory
      | depth + 1 =>
        let listed ← ((← IO.currentDir) / path).readDir
        let entries ← listed.toList.mapM fun entry =>
          return (entry.fileName, ← readEntry depth (Path.join path entry.fileName))
        return .ok (.directory (entries.filterMap fun (name, found) => found.toOption.map (name, ·)))
    | .invalidArgument .. => return .error .nameTooLong
    | _ => return .error .notFound

/-- What a path leads to that is one of the paths or goes on from one. -/
def findBelow (entries : List (String × Except ReadError FileTree)) (path : String) : Except ReadError FileTree :=
  let below (start : String × Except ReadError FileTree) : Option FileTree := do
    guard (start.1.toList.isPrefixOf path.toList)
    let tree ← start.2.toOption
    (tree.find ("." ++ String.ofList ('/' :: path.toList.drop start.1.length))).toOption
  (entries.lookup path).getD (((entries.findSome? below).map .ok).getD (.error .notFound))

/-- Looks up beforehand what an invocation is going to read. -/
def loadStorage (invocation : Invocation) : IO Storage := do
  let home ← IO.getEnv "HOME"
  let nothing : Storage := ⟨fun _ => .error .notFound, home⟩
  match invocation with
  | .run request =>
    let paths := request.optionsFile.toList ++ request.paths.map nothing.expandHome
    let entries ← paths.mapM fun path => return (path, ← readEntry 4096 path)
    return { nothing with find := findBelow entries }
  | _ => return nothing

end PairMarkup

open PairMarkup in
def main (arguments : List String) : IO UInt32 := do
  let invocation := Invocation.ofArguments arguments
  let report := invocation.report (← loadStorage invocation)
  IO.print report.output
  IO.eprint report.errors
  return report.exitCode.toUInt32
