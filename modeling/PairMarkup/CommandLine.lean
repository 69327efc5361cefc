import PairMarkup.Compilation
import PairMarkup.Export

namespace PairMarkup

/-- What the command line can ask for. -/
inductive Command where
  | check (json : Bool)
  | dump
deriving DecidableEq

/-- A command with the paths it works on and the flags that go with any command. -/
structure Request where
  command : Command
  paths : List String
  optionsFile : Option String
  /-- The format of files whose name does not tell it. -/
  format : Option Format
deriving DecidableEq

inductive Invocation where
  | misused
  | version
  | help
  | run (request : Request)
deriving DecidableEq

namespace Invocation

inductive Argument where
  | separator
  | long (name : String) (value : Option String)
  | short (letters : List Char)
  | plain
deriving DecidableEq

def classify (argument : String) : Argument :=
  match argument.toList with
  | ['-', '-'] => .separator
  | '-' :: '-' :: rest =>
    let name := String.ofList (rest.takeWhile (· ≠ '='))
    match rest.dropWhile (· ≠ '=') with
    | [] => .long name none
    | _ :: value => .long name (some (String.ofList value))
  | '-' :: c :: rest => .short (c :: rest)
  | _ => .plain

/-- The flags given so far on one side of the command. Each may be given once. -/
structure Flags where
  optionsFile : Option String := none
  format : Option Format := none
  json : Bool := false

def Flags.set? (flags : Flags) (name value : String) : Option Flags :=
  match name with
  | "options" =>
    if flags.optionsFile.isNone && !value.isEmpty then
      some { flags with optionsFile := some value }
    else none
  | "format" =>
    if flags.format.isSome then none
    else if value = "xml" then some { flags with format := some .xml }
    else if value = "json" then some { flags with format := some .json }
    else none
  | _ => none

/-- What single letters ask for, if it is more than to say more while working. -/
def readLetters (allowVersion : Bool) : List Char → Option Invocation
  | [] => none
  | c :: rest =>
    if c = 'v' then readLetters allowVersion rest
    else if c = 'h' then some .help
    else if c = 'V' && allowVersion then some .version
    else some .misused

/-- Where reading stands: the command, once it is known, with the flags before it
    and the paths behind it, and the flags on this side of it. -/
structure Reading where
  command : Option (Command × Flags) := none
  flags : Flags := {}
  paths : List String := []

def Reading.finish (r : Reading) : Invocation :=
  match r.command with
  | none => .misused
  | some (command, before) =>
    if r.paths.isEmpty then .misused
    else
      let command :=
        match command with
        | .check _ => .check r.flags.json
        | .dump => .dump
      .run ⟨command, r.paths, r.flags.optionsFile.or before.optionsFile,
        r.flags.format.or before.format⟩

/-- Flags stand before or behind the command, and of a flag that stands on both
    sides the one behind it counts. The first argument that is wrong or asks for
    something else than a command decides, and an empty path is wrong. -/
def read (r : Reading) : List String → Invocation
  | [] => r.finish
  | argument :: rest =>
    match classify argument with
    | .separator =>
      if r.command.isSome && !rest.contains "" then { r with paths := r.paths ++ rest }.finish
      else .misused
    | .plain =>
      if r.command.isSome then
        if argument.isEmpty then .misused else read { r with paths := r.paths ++ [argument] } rest
      else if argument = "check" then read ⟨some (.check false, r.flags), {}, []⟩ rest
      else if argument = "dump" then read ⟨some (.dump, r.flags), {}, []⟩ rest
      else if argument = "help" && rest ∈ [[], ["check"], ["dump"], ["help"]] then .help
      else .misused
    | .short letters =>
      match readLetters r.command.isNone letters with
      | none => read r rest
      | some invocation => invocation
    | .long name (some value) =>
      match r.flags.set? name value with
      | some flags => read { r with flags } rest
      | none => .misused
    | .long "help" none => .help
    | .long "version" none => if r.command.isNone then .version else .misused
    | .long "verbose" none => read r rest
    | .long "json" none =>
      match r.command with
      | some (.check _, _) =>
        if r.flags.json then .misused else read { r with flags := { r.flags with json := true } } rest
      | _ => .misused
    | .long name none =>
      match rest with
      | [] => .misused
      | value :: rest =>
        match if classify value = .plain then r.flags.set? name value else none with
        | some flags => read { r with flags } rest
        | none => .misused

def ofArguments (arguments : List String) : Invocation := read {} arguments

end Invocation

/-- What a run leaves behind. -/
structure Report where
  exitCode : Nat
  output : String := ""
  errors : String := ""
deriving DecidableEq

def helpText : String := "Compiler for the indentation-sensitive pair notation\n\n" ++
  "Usage: pairc [OPTIONS] <COMMAND>\n\n" ++
  "Commands:\n" ++
  "  check  [--json] <PATHS>...\n" ++
  "  dump   <PATHS>...\n\n" ++
  "Options:\n" ++
  "      --options <OPTIONS>\n" ++
  "      --format <FORMAT>    xml or json\n" ++
  "  -v, --verbose...\n" ++
  "  -h, --help\n" ++
  "  -V, --version\n"

namespace Request

def options (request : Request) (storage : Storage) : Except Failure Options := do
  let options ←
    match request.optionsFile with
    | some path => storage.readOptions path
    | none => pure {}
  return { options with defaultFormat := request.format.getD options.defaultFormat }

def report (request : Request) (storage : Storage) : Except Failure Report := do
  let options ← request.options storage
  let compilation ← Compilation.ofPaths storage options request.paths
  let exitCode := if compilation.hasErrors then 1 else 0
  let lines := String.join (compilation.diagnostics.map fun d => d.display ++ "\n")
  return match request.command with
  | .check true => ⟨exitCode, (Diagnostic.listToJson compilation.diagnostics).text ++ "\n", ""⟩
  | .check false => ⟨exitCode, lines ++ compilation.summary ++ "\n", ""⟩
  | .dump => ⟨exitCode, (compilation.set.toJson options.expansionDepth).text ++ "\n", lines⟩

end Request

def Invocation.report (storage : Storage) : Invocation → Report
  | misused => ⟨2, "", helpText⟩
  | version => ⟨0, "pairc 0.1.0\n", ""⟩
  | help => ⟨0, helpText, ""⟩
  | run request =>
    match request.report storage with
    | .ok report => report
    | .error failure => ⟨2, "", failure.message ++ "\n"⟩

end PairMarkup
