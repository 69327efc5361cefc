import PairMarkup.Proofs.Pair
import PairMarkup.Proofs.Tree.Attach
import PairMarkup.Scope

namespace PairMarkup.PairTree

variable (t : PairTree) (x : PairId) {f : Pair → Pair} {id : PairId}

theorem ext_get {t t' : PairTree} (hsize : t'.size = t.size) (hget : ∀ x, t'.get x = t.get x) : t' = t := by
  obtain ⟨pairs⟩ := t
  obtain ⟨pairs'⟩ := t'
  refine congrArg PairTree.mk (Array.ext hsize fun i hi' hi => ?_)
  have h := hget i
  simpa [get, Array.getD_eq_getD_getElem?, hi, hi'] using h

/-- Every pair without what notes on it may change. -/
def core (t : PairTree) : PairTree := ⟨t.pairs.map Pair.core⟩

/-- Every pair as written. -/
def shape (t : PairTree) : PairTree := ⟨t.pairs.map Pair.shape⟩

theorem get_map (hf : f default = default) (t : PairTree) (x : PairId) : get ⟨t.pairs.map f⟩ x = f (t.get x) := by
  simp only [get, Array.getD_eq_getD_getElem?, Array.getElem?_map]
  cases t.pairs[x]? with
  | none => exact hf.symm
  | some pair => rfl

@[simp] theorem get_core : t.core.get x = (t.get x).core := get_map rfl t x

@[simp] theorem get_shape : t.shape.get x = (t.get x).shape := get_map rfl t x

@[simp] theorem size_core : t.core.size = t.size := Array.size_map

@[simp] theorem size_shape : t.shape.size = t.size := Array.size_map

@[simp] theorem shape_core : t.core.shape = t.shape := by
  refine ext_get (by simp) fun x => ?_
  rw [get_shape, get_core, get_shape]
  simp only [Pair.shape, Pair.core, Kind.shape_core]

theorem shape_eq_of_core {t t' : PairTree} (h : t'.core = t.core) : t'.shape = t.shape := by
  rw [← shape_core, h, shape_core]

theorem core_modify {t : PairTree} (hf : (f (t.get id)).core = (t.get id).core) : (t.modify id f).core = t.core := by
  refine ext_get (by simp) fun x => ?_
  rw [get_core, get_core, get_modify]
  split
  · rename_i h
    rw [h.1]
    exact hf
  · rfl

theorem shape_modify {t : PairTree} (hf : (f (t.get id)).shape = (t.get id).shape) :
    (t.modify id f).shape = t.shape := by
  refine ext_get (by simp) fun x => ?_
  rw [get_shape, get_shape, get_modify]
  split
  · rename_i h
    rw [h.1]
    exact hf
  · rfl

@[simp] theorem parent?_shape : t.shape.parent? x = t.parent? x := by
  rw [parent?, get_shape]
  rfl

@[simp] theorem children_shape : t.shape.children x = t.children x := by
  rw [children, get_shape]
  rfl

@[simp] theorem held_shape : (t.shape.get x).held = (t.get x).held := by
  rw [get_shape]
  rfl

@[simp] theorem kind_shape : t.shape.kind x = (t.kind x).shape := by
  rw [kind, get_shape]
  rfl

@[simp] theorem nameText_shape : (t.shape.get x).nameText = (t.get x).nameText := by
  rw [get_shape]
  rfl

theorem chain_shape (n : Nat) (next : Option PairId) : t.shape.chain n next = t.chain n next := by
  induction n generalizing next with
  | zero => rfl
  | succ n ih =>
    cases next with
    | none => rfl
    | some x => simp only [chain, ih, parent?_shape]

@[simp] theorem ancestors_shape : t.shape.ancestors x = t.ancestors x := by
  rw [ancestors, chain_shape, size_shape, parent?_shape, ancestors]

@[simp] theorem enclosingDefinition?_shape : t.shape.enclosingDefinition? x = t.enclosingDefinition? x := by
  simp only [enclosingDefinition?, ancestors_shape, kind_shape, Kind.isAliasDefinition_shape]

theorem definitionsTo_shape (n : Nat) (x : PairId) : t.shape.definitionsTo n x = t.definitionsTo n x := by
  induction n generalizing x with
  | zero => rfl
  | succ n ih =>
    simp only [definitionsTo, kind_shape, children_shape, Kind.isAliasDefinition_shape,
      Kind.isDocument_shape, Kind.isModule_shape, funext ih]

@[simp] theorem hoisted_shape (owner : PairId) : t.shape.hoisted owner = t.hoisted owner := by
  simp only [hoisted, kind_shape, children_shape, Kind.isScopeOwner_shape, size_shape,
    funext (definitionsTo_shape t t.size)]

section

variable {t t' : PairTree} (h : t'.shape = t.shape)

include h

theorem size_eq_of_shape : t'.size = t.size := by rw [← size_shape, h, size_shape]

theorem parent?_eq_of_shape (x : PairId) : t'.parent? x = t.parent? x := by
  rw [← parent?_shape, h, parent?_shape]

theorem held_eq_of_shape (x : PairId) : (t'.get x).held = (t.get x).held := by
  rw [← held_shape, h, held_shape]

theorem nameText_eq_of_shape (x : PairId) : (t'.get x).nameText = (t.get x).nameText := by
  rw [← nameText_shape, h, nameText_shape]

theorem flag_eq_of_shape {α : Type} {f : Kind → α} (hf : ∀ kind, f kind.shape = f kind) (x : PairId) :
    f (t'.kind x) = f (t.kind x) := by
  rw [← hf, ← kind_shape, h, kind_shape, hf]

section

variable (x : PairId)

theorem isAliasDefinition_eq_of_shape :
    (t'.kind x).isAliasDefinition = (t.kind x).isAliasDefinition := flag_eq_of_shape h Kind.isAliasDefinition_shape x

theorem isAliasUsage_eq_of_shape : (t'.kind x).isAliasUsage = (t.kind x).isAliasUsage :=
  flag_eq_of_shape h Kind.isAliasUsage_shape x

theorem isScope_eq_of_shape : (t'.kind x).isScope = (t.kind x).isScope := flag_eq_of_shape h Kind.isScope_shape x

theorem isModule_eq_of_shape : (t'.kind x).isModule = (t.kind x).isModule := flag_eq_of_shape h Kind.isModule_shape x

theorem ancestors_eq_of_shape : t'.ancestors x = t.ancestors x := by
  rw [← ancestors_shape, h, ancestors_shape]

theorem enclosingDefinition?_eq_of_shape : t'.enclosingDefinition? x = t.enclosingDefinition? x := by
  rw [← enclosingDefinition?_shape, h, enclosingDefinition?_shape]

end

theorem WellFormed.of_shape (hwf : t.WellFormed) : t'.WellFormed :=
  hwf.of_same_links (parent?_eq_of_shape h) fun x => .of_eq (held_eq_of_shape h x)

end

end PairMarkup.PairTree
