import PairMarkup.Export
import PairMarkup.Proofs.Json.RoundTrip

namespace PairMarkup

open List Option

def ExpandedKind.ofName? (name : String) : Option ExpandedKind := [document, element, attr].find? (·.name = name)

theorem ExpandedKind.ofName?_name (kind : ExpandedKind) : ofName? kind.name = some kind := by
  cases kind <;> decide

def ValueKind.ofName? (name : String) : Option ValueKind :=
  [none, empty, singleQuoted, doubleQuoted, openString, foldedOpenString, pairValue, null, number, boolean, object,
    concatenation, literalChoice].find? (·.name = name)

theorem ValueKind.ofName?_name (kind : ValueKind) : ofName? kind.name = some kind := by
  cases kind <;> decide

namespace Json

def field? (fields : List (String × Json)) (key : String) : Option Json := (fields.find? (·.1 = key)).map (·.2)

def string? : Json → Option String
  | string text => some text
  | _ => none

/-- A text, or none where `null` is written. -/
def nullable? : Json → Option (Option String)
  | string text => some (some text)
  | null => some none
  | _ => none

variable (name key : String) (text : Option String) {fields : List (String × Json)}

theorem mem_of_field? {key : String} {json : Json} (h : field? fields key = some json) :
    ∃ name, (name, json) ∈ fields := by
  obtain ⟨⟨name, json⟩, hfind, rfl⟩ := map_eq_some_iff.mp h
  exact ⟨name, mem_of_find?_eq_some hfind⟩

theorem nullable?_ofOption : nullable? (ofOption text) = some text := by
  cases text <;> rfl

theorem field?_append (fields others : List (String × Json)) (key : String) :
    field? (fields ++ others) key = (field? fields key).or (field? others key) := by
  rw [field?, find?_append, map_or]
  rfl

theorem field?_cons (json : Json) (fields : List (String × Json)) :
    field? ((name, json) :: fields) key = if name = key then some json else field? fields key := by
  rw [field?, find?_cons]
  by_cases h : name = key <;> simp [h, field?]

theorem field?_optionalField (json : Option Json) :
    field? (optionalField name json) key = if name = key then json else none := by
  cases json with
  | none => exact (ite_self none).symm
  | some json => exact field?_cons name key json []

theorem lawful_ofOption : (ofOption text).Lawful := by
  cases text <;> simp [ofOption, Lawful]

theorem lawfulItems_iff {items : List Json} : LawfulItems items ↔ ∀ item ∈ items, item.Lawful := by
  induction items with
  | nil => simp [LawfulItems]
  | cons item items ih => simp [LawfulItems, ih]

theorem lawfulFields_append {others : List (String × Json)} :
    LawfulFields (fields ++ others) ↔ LawfulFields fields ∧ LawfulFields others := by
  induction fields with
  | nil => simp [LawfulFields]
  | cons field fields ih => simp [LawfulFields, ih, and_assoc]

theorem lawfulFields_optionalField {name : String} {json : Option Json} (h : ∀ value ∈ json, value.Lawful) :
    LawfulFields (optionalField name json) := by
  cases json with
  | none => trivial
  | some value => exact ⟨h value rfl, trivial⟩

end Json

theorem mapM_map_eq_some {α β : Type} {f : α → β} {g : β → Option α} {as : List α} (h : ∀ a ∈ as, g (f a) = some a) :
    (as.map f).mapM g = some as := by
  induction as with
  | nil => rfl
  | cons a as ih =>
    rw [map_cons, mapM_cons, h a mem_cons_self, ih fun b hb => h b (mem_cons_of_mem _ hb)]
    rfl

namespace Expanded

open Json

/-- The kind of a value. It is left out for a pair without a value. -/
def valueKindOf? : Option Json → Option ValueKind
  | some json => json.string?.bind ValueKind.ofName?
  | none => some .none

/-- Puts a pair together from its fields, when its children are known. -/
def ofFields? (fields : List (String × Json)) (children : List Expanded) : Option Expanded := do
  let kind ← (← field? fields "kind").string?
  let name ← (← field? fields "name").string?
  let namespaceUri ← (← field? fields "namespace").nullable?
  let value ← (← field? fields "value").nullable?
  let valueKind ← valueKindOf? (field? fields "value_kind")
  return {
    kind := ← ExpandedKind.ofName? kind
    name
    nsPrefix := (field? fields "prefix").bind string?
    namespaceUri
    value
    valueKind
    isChoice := (field? fields "choice").isSome
    children }

/-- Reads what an expanded pair is exported to. -/
def ofJson? (json : Json) : Option Expanded :=
  match json with
  | .object fields =>
    match _ : field? fields "children" with
    | some (.array items) => do
      let children ← items.attach.mapM fun ⟨item, _⟩ => ofJson? item
      ofFields? fields children
    | _ => none
  | _ => none
termination_by json
decreasing_by
  obtain ⟨name, hfield⟩ := mem_of_field? ‹field? fields "children" = some (.array items)›
  have hfields := List.sizeOf_lt_of_mem hfield
  have hitem := List.sizeOf_lt_of_mem ‹item ∈ items›
  simp only [Prod.mk.sizeOf_spec, Json.array.sizeOf_spec] at hfields
  simp only [Json.object.sizeOf_spec]
  omega

/-- Reads the text that an expanded pair is exported to. -/
def ofText? (text : String) : Option Expanded := (read? text.toList).bind ofJson?

theorem ofJson?_object {fields : List (String × Json)} {items : List Json}
    (h : field? fields "children" = some (.array items)) :
    ofJson? (.object fields) = (items.mapM ofJson?).bind (ofFields? fields) := by
  rw [ofJson?]
  split
  · rename_i items' hitems
    obtain rfl : items = items' := by
      rw [h] at hitems
      cases hitems
      rfl
    simp
  · rename_i hnone
    exact absurd h (hnone items)

/-- The fields of a pair, with what its children are exported to. -/
def fieldsWith (e : Expanded) (children : List Json) : List (String × Json) := [("children", .array children)] ++
    optionalField "choice" (if e.isChoice then some (.bool true) else none) ++
    [("kind", .string e.kind.name), ("name", .string e.name), ("namespace", Json.ofOption e.namespaceUri)] ++
    optionalField "prefix" (e.nsPrefix.map .string) ++
    [("value", Json.ofOption e.value)] ++
    optionalField "value_kind" (if e.valueKind = .none then none else some (.string e.valueKind.name))

variable (e : Expanded) (children : List Json)

theorem toJson_eq : e.toJson = .object (e.fieldsWith (e.children.map toJson)) := by
  rw [toJson, fieldsWith]
  simp

theorem valueKindOf?_name (kind : ValueKind) :
    valueKindOf? (if kind = .none then none else some (.string kind.name)) = some kind := by
  split
  · rename_i hnone
    rw [hnone]
    rfl
  · exact ValueKind.ofName?_name kind

theorem field?_children : field? (e.fieldsWith children) "children" = some (.array children) := by
  simp [fieldsWith, field?_cons]

/-- From the fields of a pair, the pair is put together again. -/
theorem ofFields?_fieldsWith : ofFields? (e.fieldsWith children) e.children = some e := by
  obtain ⟨kind, name, nsPrefix, uri, value, valueKind, isChoice, inner⟩ := e
  have hprefix : (nsPrefix.map Json.string).bind string? = nsPrefix := by
    cases nsPrefix <;> rfl
  have hchoice : (if isChoice then some (Json.bool true) else none).isSome = isChoice := by
    cases isChoice <;> rfl
  simp [ofFields?, fieldsWith, field?_append, field?_cons, field?_optionalField, string?, nullable?_ofOption,
    valueKindOf?_name, ExpandedKind.ofName?_name, hprefix, hchoice]

theorem sizeOf_child_lt {e c : Expanded} (h : c ∈ e.children) : sizeOf c < sizeOf e := by
  have hlt := sizeOf_lt_of_mem h
  cases e
  simp only [Expanded.mk.sizeOf_spec] at hlt ⊢
  omega

theorem ofJson?_toJson (e : Expanded) : ofJson? e.toJson = some e := by
  have hchildren : (e.children.map toJson).mapM ofJson? = some e.children :=
    mapM_map_eq_some fun c _ => ofJson?_toJson c
  rw [toJson_eq, ofJson?_object (field?_children ..), hchildren, bind_some, ofFields?_fieldsWith]
termination_by e
decreasing_by exact sizeOf_child_lt ‹_›

theorem lawful_toJson (e : Expanded) : e.toJson.Lawful := by
  have hchildren : LawfulItems (e.children.map toJson) := by
    refine lawfulItems_iff.mpr fun json hjson => ?_
    obtain ⟨c, hc, rfl⟩ := mem_map.mp hjson
    exact lawful_toJson c
  have hprefix : ∀ json ∈ e.nsPrefix.map Json.string, json.Lawful := by
    cases e.nsPrefix <;> simp [Lawful]
  have hchoice : ∀ json ∈ if e.isChoice then some (Json.bool true) else none, json.Lawful := by
    cases e.isChoice <;> simp [Lawful]
  have hvalueKind : ∀ json ∈ if e.valueKind = .none then none else some (Json.string e.valueKind.name),
      json.Lawful := by
    split <;> simp [Lawful]
  rw [toJson_eq, Lawful]
  simp only [fieldsWith, lawfulFields_append, LawfulFields, Lawful, lawful_ofOption, hchildren,
    lawfulFields_optionalField hprefix, lawfulFields_optionalField hchoice, lawfulFields_optionalField hvalueKind,
    and_true]
termination_by e
decreasing_by exact sizeOf_child_lt ‹_›

/-- The export of a pair can be read back from its text. So different pairs have different texts. -/
theorem export_decodable : (∀ e : Expanded, ofText? e.toJson.text = some e) ∧
    Function.Injective fun e : Expanded => e.toJson.text := by
  have hdecode : ∀ e : Expanded, ofText? e.toJson.text = some e := by
    intro e
    rw [ofText?, read?_text e.lawful_toJson, Option.bind_some, ofJson?_toJson]
  refine ⟨hdecode, fun e e' h => ?_⟩
  apply Option.some.inj
  rw [← hdecode e, ← hdecode e']
  exact congrArg ofText? h

end Expanded

end PairMarkup
