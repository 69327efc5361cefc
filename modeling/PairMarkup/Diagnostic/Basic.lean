import PairMarkup.Position
import PairMarkup.Diagnostic.Code

namespace PairMarkup

/-- The stage that found a problem. -/
inductive Origin where
  | parse
  | resolve
deriving DecidableEq

def Origin.name : Origin → String
  | parse => "Parse"
  | resolve => "Resolve"

/-- A problem in a source text that does not stop the work on it. -/
structure Diagnostic where
  code : Code
  message : String
  file : String
  /-- The number of the module in its unit, from zero. -/
  fileIndex : Nat
  span : Span
  origin : Origin
deriving DecidableEq

namespace Diagnostic

/-- A diagnostic worded from its code and arguments. -/
def of (code : Code) (arguments : List String) (file : String) (fileIndex : Nat) (span : Span)
    (origin : Origin) : Diagnostic :=
  ⟨code, code.format arguments, file, fileIndex, span, origin⟩

/-- File, line, column, code and message on one line. -/
def display (d : Diagnostic) : String :=
  d.file ++ ":" ++ toString d.span.start.line ++ ":" ++ toString d.span.start.column ++ ": " ++
    d.code.name ++ " (" ++ toString d.code.number ++ "): " ++ d.message

/-- Diagnostics are listed by file, offset, code and message. -/
def le (a b : Diagnostic) : Bool := a.fileIndex < b.fileIndex || (a.fileIndex = b.fileIndex &&
    (a.span.start.offset < b.span.start.offset || (a.span.start.offset = b.span.start.offset &&
      (a.code.name < b.code.name || (a.code.name = b.code.name &&
        (a.message < b.message || a.message = b.message))))))

/-- In listing order; equals keep the order in which they arrived. -/
def sort (ds : List Diagnostic) : List Diagnostic := ds.mergeSort le

end Diagnostic

/-- A count with its noun, which takes an `s` for any count but one. -/
def pluralize (count : Nat) (noun : String) : String :=
  toString count ++ " " ++ noun ++ (if count = 1 then "" else "s")

/-- How many files were looked at and how many diagnostics they gave. -/
def summary (files errors : Nat) : String := pluralize files "file" ++ ", " ++ pluralize errors "error"

end PairMarkup
