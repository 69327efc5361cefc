import PairMarkup.Pair.Basic

namespace PairMarkup

/-- Nothing in the kind tells of references that were resolved. -/
def Kind.Unresolved : Kind → Prop
  | .aliasUsage definition => definition = none
  | .aliasDefinition info => info.isCircular = false
  | .parameter definition _ => definition = none
  | _ => True

/-- The kind without what it owes to its place: the choices of a document, and whether a
    parameter stands in place of a value. -/
def Kind.unplaced : Kind → Kind
  | .document _ implicit => .document .empty implicit
  | .parameter definition _ => .parameter definition .block
  | kind => kind

/-- What is said in the pair itself, wherever it stands. -/
def Pair.unplaced (pair : Pair) : Pair :=
  { pair with
    kind := pair.kind.unplaced
    span := default
    children := []
    parent := none
    isChoice := false }

/-- The pair has no namespace yet, and a value that is referred to has no parts. -/
structure Pair.Verbatim (pair : Pair) : Prop where
  namespaceUri_eq : pair.namespaceUri = none
  items_eq_none : pair.valueKind = .pairValue → pair.items = none

/-- A text between the references of a value. -/
structure Pair.IsText (pair : Pair) : Prop where
  items_eq : pair.items = none
  delimiter_eq : pair.delimiter = .none
  valueKind_eq : pair.valueKind = .doubleQuoted

/-- A reference, or a text between references. -/
def Pair.IsPart (pair : Pair) : Prop := pair.kind.isElement = true → pair.IsText

/-- The kind without the choices of a document, the parameters of a definition and
    all that is known of a parameter. -/
def Kind.core : Kind → Kind
  | .document _ implicit => .document .empty implicit
  | .aliasDefinition info => .aliasDefinition { isCircular := info.isCircular }
  | .parameter _ _ => .parameter none .block
  | kind => kind

/-- The pair without what notes on it may change: what is left out of its kind, the
    kind of its value and its namespace. -/
def Pair.core (pair : Pair) : Pair := { pair with kind := pair.kind.core, valueKind := .none, namespaceUri := none }

/-- The kind without anything that resolving adds to it. -/
def Kind.shape : Kind → Kind
  | .aliasDefinition _ => .aliasDefinition {}
  | .aliasUsage _ => .aliasUsage none
  | kind => kind.core

/-- The pair as written: without what resolving adds to it. -/
def Pair.shape (pair : Pair) : Pair := { pair with kind := pair.kind.shape, valueKind := .none, namespaceUri := none }

namespace Kind

/-- Whether pairs of the kind are in a namespace: elements, attributes and scopes are. -/
def hasNamespace : Kind → Bool
  | element | attr | scope => true
  | _ => false

variable (kind : Kind)

@[simp] theorem isModule_unplaced : kind.unplaced.isModule = kind.isModule := by
  cases kind <;> rfl

@[simp] theorem isElement_unplaced : kind.unplaced.isElement = kind.isElement := by
  cases kind <;> rfl

@[simp] theorem unresolved_unplaced : kind.unplaced.Unresolved ↔ kind.Unresolved := by
  cases kind <;> rfl

@[simp] theorem shape_core : kind.core.shape = kind.shape := by
  cases kind <;> rfl

@[simp] theorem isModule_shape : kind.shape.isModule = kind.isModule := by
  cases kind <;> rfl

@[simp] theorem isComment_shape : kind.shape.isComment = kind.isComment := by
  cases kind <;> rfl

@[simp] theorem isElement_shape : kind.shape.isElement = kind.isElement := by
  cases kind <;> rfl

@[simp] theorem isParameter_shape : kind.shape.isParameter = kind.isParameter := by
  cases kind <;> rfl

@[simp] theorem isNamespaceDefinition_shape : kind.shape.isNamespaceDefinition = kind.isNamespaceDefinition := by
  cases kind <;> rfl

@[simp] theorem isDocument_shape : kind.shape.isDocument = kind.isDocument := by
  cases kind <;> rfl

@[simp] theorem isScope_shape : kind.shape.isScope = kind.isScope := by
  cases kind <;> rfl

@[simp] theorem isAliasDefinition_shape : kind.shape.isAliasDefinition = kind.isAliasDefinition := by
  cases kind <;> rfl

@[simp] theorem isAliasUsage_shape : kind.shape.isAliasUsage = kind.isAliasUsage := by
  cases kind <;> rfl

@[simp] theorem isScopeOwner_shape : kind.shape.isScopeOwner = kind.isScopeOwner := by
  cases kind <;> rfl

@[simp] theorem hasNamespace_shape : kind.shape.hasNamespace = kind.hasNamespace := by
  cases kind <;> rfl

section

variable {kind : Kind}

section

variable (h : kind.isParameter)

include h

theorem not_definition_of_parameter : kind.isAliasDefinition = false := by
  cases kind <;> first | rfl | cases h

theorem not_usage_of_parameter : kind.isAliasUsage = false := by
  cases kind <;> first | rfl | cases h

theorem not_scope_of_parameter : kind.isScope = false := by
  cases kind <;> first | rfl | cases h

theorem not_comment_of_parameter : kind.isComment = false := by
  cases kind <;> first | rfl | cases h

end

theorem not_usage_of_element (h : kind.isElement) : kind.isAliasUsage = false := by
  cases kind <;> first | rfl | cases h

theorem not_scope_of_element (h : kind.isElement) : kind.isScope = false := by
  cases kind <;> first | rfl | cases h

theorem not_scope_of_definition (h : kind.isAliasDefinition) : kind.isScope = false := by
  cases kind <;> first | rfl | cases h

theorem not_scope_of_usage (h : kind.isAliasUsage) : kind.isScope = false := by
  cases kind <;> first | rfl | cases h

theorem not_scope_of_namespaceDefinition (h : kind.isNamespaceDefinition) : kind.isScope = false := by
  cases kind <;> first | rfl | cases h

theorem not_comment_of_namespaceDefinition (h : kind.isNamespaceDefinition) : kind.isComment = false := by
  cases kind <;> first | rfl | cases h

section

variable (h : kind.hasNamespace)

include h

theorem not_definition_of_hasNamespace : kind.isAliasDefinition = false := by
  cases kind <;> first | rfl | cases h

theorem not_usage_of_hasNamespace : kind.isAliasUsage = false := by
  cases kind <;> first | rfl | cases h

theorem not_comment_of_hasNamespace : kind.isComment = false := by
  cases kind <;> first | rfl | cases h

end

theorem hasNamespace_of_scope (h : kind.isScope) : kind.hasNamespace := by
  cases kind <;> first | rfl | cases h

end

theorem core_eq_aliasUsage {kind : Kind} {definition : Option PairId} :
    kind.core = .aliasUsage definition ↔ kind = .aliasUsage definition := by
  cases kind <;> simp [core]

end Kind

namespace Pair

variable (f : ChoiceTree → ChoiceTree) (pair : Pair)

theorem mapChoices_core : (pair.mapChoices f).core = pair.core := by
  unfold mapChoices
  split
  · rename_i hkind
    simp only [core, hkind, Kind.core]
  · rfl

theorem mapChoices_unplaced : (pair.mapChoices f).unplaced = pair.unplaced := by
  unfold mapChoices
  split
  · rename_i hkind
    simp only [unplaced, hkind, Kind.unplaced]
  · rfl

/-- Only the circular mark of a definition belongs to its core. -/
theorem mapInfo_core {f : DefinitionInfo → DefinitionInfo}
    (hf : ∀ info, (f info).isCircular = info.isCircular) (pair : Pair) :
    (pair.mapInfo f).core = pair.core := by
  unfold mapInfo
  split
  · rename_i info hkind
    simp only [core, hkind, Kind.core, hf]
  · rfl

variable {a b : Pair}

section

variable (h : a.core = b.core)

include h

theorem parent_eq_of_core : a.parent = b.parent := show a.core.parent = b.core.parent from congrArg Pair.parent h

theorem children_eq_of_core : a.children = b.children :=
  show a.core.children = b.core.children from congrArg Pair.children h

theorem items_eq_of_core : a.items = b.items := show a.core.items = b.core.items from congrArg Pair.items h

theorem held_eq_of_core : a.held = b.held := by
  rw [held, children_eq_of_core h, items_eq_of_core h, held]

end

section

variable (h : a.unplaced = b.unplaced)

include h

theorem items_eq_of_unplaced : a.items = b.items :=
  show a.unplaced.items = b.unplaced.items from congrArg Pair.items h

theorem delimiter_eq_of_unplaced : a.delimiter = b.delimiter :=
  show a.unplaced.delimiter = b.unplaced.delimiter from congrArg Pair.delimiter h

theorem valueKind_eq_of_unplaced : a.valueKind = b.valueKind :=
  show a.unplaced.valueKind = b.unplaced.valueKind from congrArg Pair.valueKind h

theorem isElement_eq_of_unplaced : a.kind.isElement = b.kind.isElement := by
  rw [← Kind.isElement_unplaced a.kind, ← Kind.isElement_unplaced b.kind]
  exact congrArg (fun pair => pair.kind.isElement) h

end

theorem Verbatim.of_unplaced (hb : b.Verbatim) (h : a.unplaced = b.unplaced) : a.Verbatim where
  namespaceUri_eq :=
    (show a.unplaced.namespaceUri = b.unplaced.namespaceUri from congrArg Pair.namespaceUri h).trans
      hb.namespaceUri_eq
  items_eq_none hkind := by
    rw [valueKind_eq_of_unplaced h] at hkind
    rw [items_eq_of_unplaced h]
    exact hb.items_eq_none hkind

theorem IsText.of_unplaced (hb : b.IsText) (h : a.unplaced = b.unplaced) : a.IsText where
  items_eq := (items_eq_of_unplaced h).trans hb.items_eq
  delimiter_eq := (delimiter_eq_of_unplaced h).trans hb.delimiter_eq
  valueKind_eq := (valueKind_eq_of_unplaced h).trans hb.valueKind_eq

theorem IsPart.of_unplaced (hb : b.IsPart) (h : a.unplaced = b.unplaced) : a.IsPart :=
  fun helement => (hb (isElement_eq_of_unplaced h ▸ helement)).of_unplaced h

theorem not_isText_of_isValue (h : a.delimiter.isValue) : ¬ a.IsText := by
  intro htext
  rw [htext.delimiter_eq] at h
  cases h

theorem kind_eq_of_core (h : a.core = b.core) : a.kind.core = b.kind.core :=
  show a.core.kind = b.core.kind from congrArg Pair.kind h

end Pair

end PairMarkup
