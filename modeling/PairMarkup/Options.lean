import PairMarkup.Failure
import PairMarkup.Json.Reader
import PairMarkup.Pair.Vocabulary
import PairMarkup.Path

namespace PairMarkup

/-- How a unit is compiled. -/
structure Options where
  /-- For files whose name does not tell their format. -/
  defaultFormat : Format := .xml
  maxErrors : Nat := 1000
  xmlExtensions : List String := ["pxml"]
  jsonExtensions : List String := ["pjson"]
  /-- Directories inside of directories are searched too. -/
  recursive : Bool := true
  /-- How deep alias usages may be expanded inside of each other. -/
  expansionDepth : Nat := 64
deriving DecidableEq, Inhabited

namespace Options

variable (o : Options)

/-- Upper and lower case are the same among ASCII letters only. -/
def sameIgnoringCase (a b : String) : Bool := a.toList.map Char.toLower == b.toList.map Char.toLower

def formatFor? (path : String) : Option Format :=
  match Path.extension? path with
  | none => none
  | some extension =>
    if o.xmlExtensions.any (sameIgnoringCase extension) then some .xml
    else if o.jsonExtensions.any (sameIgnoringCase extension) then some .json
    else none

/-- Whether a file that is found in a directory is taken. -/
def accepts (path : String) : Bool := (o.formatFor? path).isSome

def formatOf (path : String) : Format := (o.formatFor? path).getD o.defaultFormat

/-- The names of the options, in the order in which an array gives them. -/
def names : List String := ["default_format", "max_errors", "xml_extensions", "json_extensions", "recursive",
    "expand_max_depth"]

/-- A format is given by its name, alone or as the only field of an object. -/
def format? : Json → Option Format
  | .string name => named name
  | .object [(name, .null)] => named name
  | _ => none
where
  named (name : String) : Option Format :=
    if name = "xml" then some .xml else if name = "json" then some .json else none

/-- Natural numbers are plain digits and fit into 64 bits. -/
def natural? : Json → Option Nat
  | .number literal =>
    if literal.toList.all Char.isDigit then
      let n := literal.toList.foldl (fun n c => 10 * n + (c.toNat - 48)) 0
      if n < UInt64.size then some n else none
    else none
  | _ => none

def texts? : Json → Option (List String)
  | .array items =>
    items.mapM fun item =>
      match item with
      | .string text => some text
      | _ => none
  | _ => none

/-- Sets one option. Unknown ones are passed over. -/
def set? (field : String × Json) : Option Options :=
  match field.1 with
  | "default_format" => (format? field.2).map fun format => { o with defaultFormat := format }
  | "max_errors" => (natural? field.2).map fun n => { o with maxErrors := n }
  | "xml_extensions" => (texts? field.2).map fun texts => { o with xmlExtensions := texts }
  | "json_extensions" => (texts? field.2).map fun texts => { o with jsonExtensions := texts }
  | "recursive" =>
    match field.2 with
    | .bool value => some { o with recursive := value }
    | _ => none
  | "expand_max_depth" => (natural? field.2).map fun n => { o with expansionDepth := n }
  | _ => some o

/-- Every option is given once at most. -/
def ofFields? (fields : List (String × Json)) : Option Options :=
  if (fields.map (·.1)).filter names.contains |>.Nodup then fields.foldlM set? {} else none

/-- The options in order, where the last ones may be missing. -/
def ofItems? (items : List Json) : Option Options :=
  if items.length ≤ names.length then (names.zip items).foldlM set? {} else none

def ofText (text : List Char) : Except OptionsError Options :=
  let options :=
    match Json.readObject? (fun name => !names.contains name) text with
    | some fields => ofFields? fields
    | none =>
      match Json.read? text with
      | some (.array items) => ofItems? items
      | _ => none
  match options with
  | none => .error .malformed
  | some options => if options.maxErrors = 0 then .error .noErrorsAllowed else .ok options

end Options

def Format.ofPath? (path : String) : Option Format := ({} : Options).formatFor? path

end PairMarkup
