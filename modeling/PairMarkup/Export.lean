import PairMarkup.Expansion
import PairMarkup.Json.Basic

namespace PairMarkup

def Json.optionalField (key : String) (value : Option Json) : List (String × Json) :=
  value.toList.map fun value => (key, value)

/-- The fields of a pair, in the order of their names. -/
def Expanded.toJson (e : Expanded) : Json := .object (
    [("children", .array (e.children.attach.map fun ⟨child, _⟩ => child.toJson))] ++
    Json.optionalField "choice" (if e.isChoice then some (.bool true) else none) ++
    [("kind", .string e.kind.name), ("name", .string e.name), ("namespace", Json.ofOption e.namespaceUri)] ++
    Json.optionalField "prefix" (e.nsPrefix.map .string) ++
    [("value", Json.ofOption e.value)] ++
    Json.optionalField "value_kind" (if e.valueKind = .none then none else some (.string e.valueKind.name)))
termination_by e
decreasing_by
  cases e
  simp_wf
  rename_i hmem
  have := List.sizeOf_lt_of_mem hmem
  simp only at this
  omega

def ModuleSet.toJson (set : ModuleSet) (limit : Nat) : Json := .array (set.modules.map fun id => .object [
    ("documents", .array ((set.expandModule limit id).map Expanded.toJson)),
    ("format", Json.ofOption ((set.format? id).map Format.name)),
    ("module", .string (set.tree.get id).file)])

def Diagnostic.toJson (d : Diagnostic) : Json :=
  .object [("code", .string d.code.name), ("column", .ofNat d.span.start.column),
    ("file", .string d.file), ("line", .ofNat d.span.start.line), ("message", .string d.message),
    ("number", .ofNat d.code.number), ("offset", .ofNat d.span.start.offset),
    ("origin", .string d.origin.name)]

def Diagnostic.listToJson (ds : List Diagnostic) : Json := .array (ds.map Diagnostic.toJson)

end PairMarkup
