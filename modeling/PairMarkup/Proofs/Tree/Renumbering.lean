import Mathlib.Logic.Equiv.Basic
import PairMarkup.Proofs.Tree.Rooted

namespace PairMarkup

open List

/-- The kind without the choices of a document and what a definition takes. -/
def Kind.plain : Kind → Kind
  | .document _ implicit => .document .empty implicit
  | .aliasDefinition info => .aliasDefinition { isCircular := info.isCircular }
  | kind => kind

/-- The pair without what is noted for reports and listings only. -/
def Pair.plain (pair : Pair) : Pair := { pair with kind := pair.kind.plain }

/-- The pair with other numbers for the pairs around it. -/
def Pair.renumber (φ : PairId → PairId) (pair : Pair) : Pair :=
  { pair with
    children := pair.children.map φ
    items := pair.items.map (List.map φ)
    parent := pair.parent.map φ }

namespace Kind

@[simp] theorem shape_plain (kind : Kind) : kind.plain.shape = kind.shape := by cases kind <;> rfl

theorem eq_or_of_plain {a b : Kind} (h : a.plain = b.plain) : a = b ∨
    (∃ choices choices' implicit, a = .document choices implicit ∧ b = .document choices' implicit) ∨
    ∃ info info', a = .aliasDefinition info ∧ b = .aliasDefinition info' ∧ info.isCircular = info'.isCircular := by
  cases a <;> cases b <;> simp_all [plain]

variable {kind : Kind}

theorem plain_eq_aliasUsage {definition : Option PairId} :
    kind.plain = .aliasUsage definition ↔ kind = .aliasUsage definition := by
  cases kind <;> simp [plain]

theorem isElement_iff : kind.isElement ↔ kind = .element := by
  cases kind <;> simp [isElement]

/-- What does not depend on what resolving adds does not depend on notes. -/
theorem flag_plain {α : Type} {f : Kind → α} (hshape : ∀ kind, f kind.shape = f kind) (kind : Kind) :
    f kind.plain = f kind := by
  rw [← hshape, shape_plain, hshape]

@[simp] theorem isArgument_shape (kind : Kind) : kind.shape.isArgument = kind.isArgument := by
  cases kind <;> rfl

end Kind

namespace Pair

variable {φ ψ : PairId → PairId} (pair : Pair)

@[simp] theorem shape_plain : pair.plain.shape = pair.shape := by
  simp only [plain, shape, Kind.shape_plain]

theorem mapChoices_plain (f : ChoiceTree → ChoiceTree) (pair : Pair) : (pair.mapChoices f).plain = pair.plain := by
  unfold mapChoices
  split
  · rename_i hkind
    simp only [plain, hkind, Kind.plain]
  · rfl

theorem mapInfo_plain {f : DefinitionInfo → DefinitionInfo}
    (hf : ∀ info, (f info).isCircular = info.isCircular) (pair : Pair) :
    (pair.mapInfo f).plain = pair.plain := by
  unfold mapInfo
  split
  · rename_i info hkind
    simp only [plain, hkind, Kind.plain, hf]
  · rfl

theorem renumber_renumber : (pair.renumber φ).renumber ψ = pair.renumber (ψ ∘ φ) := by
  simp [renumber]

theorem renumber_of_fixed {pair : Pair} (hheld : ∀ x ∈ pair.held, φ x = x)
    (hparent : ∀ x, pair.parent = some x → φ x = x) : pair.renumber φ = pair := by
  obtain ⟨kind, span, nameSpan, file, fileIndex, name, nsPrefix, uri, value, valueKind, delimiter, children,
    items, parent, isChoice⟩ := pair
  have hmap : ∀ {ids : List PairId}, (∀ x ∈ ids, φ x = x) → ids.map φ = ids := fun h =>
    (map_congr_left h).trans (map_id _)
  simp only [held, mem_append] at hheld
  simp only [renumber]
  rw [hmap fun x hx => hheld x (.inl hx)]
  congr 1
  · cases items with
    | none => rfl
    | some items => exact congrArg some (hmap fun x hx => hheld x (.inr hx))
  · cases parent with
    | none => rfl
    | some x => exact congrArg some (hparent x rfl)

theorem renumber_id : pair.renumber id = pair := renumber_of_fixed (fun _ _ => rfl) fun _ _ => rfl

theorem held_renumber : (pair.renumber φ).held = pair.held.map φ := by
  cases hitems : pair.items <;> simp [renumber, held, hitems]

theorem held_plain : pair.plain.held = pair.held := rfl

end Pair

namespace PairTree

/-- The second tree is the first one with other numbers for some of the elements. -/
structure Renumbers (φ : Equiv.Perm PairId) (t t' : PairTree) : Prop where
  size_eq : t'.size = t.size
  fixes : ∀ x, (t.kind x).isElement = false → φ x = x
  plain_eq : ∀ x, (t'.get (φ x)).plain = (t.get x).plain.renumber φ

namespace Renumbers

variable {φ ψ : Equiv.Perm PairId} {t t' t'' : PairTree} {x : PairId}

theorem refl (t : PairTree) : Renumbers (Equiv.refl PairId) t t where
  size_eq := rfl
  fixes _ _ := rfl
  plain_eq _ := (Pair.renumber_id _).symm

section

variable (h : Renumbers φ t t') {f : Kind → Bool} {α : Type}

include h

/-- What depends neither on notes nor on numbers is the same. -/
theorem eq_of_keeps (g : Pair → α) (hplain : ∀ pair, g pair.plain = g pair)
    (hrenumber : ∀ pair, g (pair.renumber φ) = g pair) (x : PairId) : g (t'.get (φ x)) = g (t.get x) := by
  rw [← hplain, h.plain_eq, hrenumber, hplain]

theorem kind_eq (x : PairId) : (t'.kind (φ x)).plain = (t.kind x).plain := congrArg Pair.kind (h.plain_eq x)

theorem flag_eq {f : Kind → α} (hshape : ∀ kind, f kind.shape = f kind) (x : PairId) :
    f (t'.kind (φ x)) = f (t.kind x) := by
  rw [← Kind.flag_plain hshape, h.kind_eq, Kind.flag_plain hshape]

theorem fixed (hf : f .element = false) (hx : f (t.kind x)) : φ x = x := by
  refine h.fixes x ?_
  cases helement : (t.kind x).isElement with
  | false => rfl
  | true =>
    rw [Kind.isElement_iff.mp helement, hf] at hx
    cases hx

theorem fixed_of_le (hx : t.size ≤ x) : φ x = x := by
  refine h.fixes x ?_
  rw [kind, get_eq_default hx]
  rfl

theorem lt_size_iff : φ x < t.size ↔ x < t.size := by
  constructor
  · intro hlt
    by_contra hx
    rw [h.fixed_of_le (Nat.le_of_not_lt hx)] at hlt
    exact hx hlt
  · intro hlt
    by_contra hx
    have heq : φ (φ x) = φ x := h.fixed_of_le (Nat.le_of_not_lt hx)
    rw [φ.injective heq] at hx
    exact hx hlt

section

variable (x)

theorem children_eq : t'.children (φ x) = (t.children x).map φ := congrArg Pair.children (h.plain_eq x)

theorem items_eq : (t'.get (φ x)).items = (t.get x).items.map (List.map φ) := congrArg Pair.items (h.plain_eq x)

theorem parent?_eq : t'.parent? (φ x) = (t.parent? x).map φ := congrArg Pair.parent (h.plain_eq x)

theorem held_eq : (t'.get (φ x)).held = (t.get x).held.map φ := by
  rw [← Pair.held_plain, h.plain_eq, Pair.held_renumber, Pair.held_plain]

end

theorem symm : Renumbers φ.symm t' t where
  size_eq := h.size_eq.symm
  fixes x hx := by
    obtain ⟨y, rfl⟩ := φ.surjective x
    rw [h.flag_eq Kind.isElement_shape] at hx
    rw [Equiv.symm_apply_apply, h.fixes y hx]
  plain_eq x := by
    obtain ⟨y, rfl⟩ := φ.surjective x
    rw [Equiv.symm_apply_apply, h.plain_eq, Pair.renumber_renumber, Equiv.symm_comp_self, Pair.renumber_id]

/-- Those of a kind are the same ones, unless elements are asked for. -/
theorem flag_eq_self (hf : f .element = false) (hshape : ∀ kind, f kind.shape = f kind)
    (x : PairId) : f (t'.kind x) = f (t.kind x) := by
  have hflag := h.flag_eq hshape x
  by_cases hx : f (t.kind x) = true
  · rwa [h.fixed hf hx] at hflag
  · by_cases hx' : f (t'.kind x) = true
    · have hself : φ.symm x = x := h.symm.fixed hf hx'
      rwa [(φ.symm_apply_eq.mp hself).symm] at hflag
    · rw [Bool.eq_false_iff.mpr hx, Bool.eq_false_iff.mpr hx']

theorem trans (h' : Renumbers ψ t' t'') : Renumbers (φ.trans ψ) t t'' where
  size_eq := h'.size_eq.trans h.size_eq
  fixes x hx := by
    have hx' : (t'.kind (φ x)).isElement = false := (h.flag_eq Kind.isElement_shape x).trans hx
    rw [Equiv.trans_apply, h'.fixes _ hx', h.fixes x hx]
  plain_eq x := by
    rw [Equiv.trans_apply, h'.plain_eq, h.plain_eq, Pair.renumber_renumber]
    rfl

theorem wellFormed (hwf : t.WellFormed) : t'.WellFormed := by
  refine ⟨fun p => ?_, fun {c p} => ?_, ?_⟩
  · obtain ⟨p, rfl⟩ := φ.surjective p
    rw [h.held_eq]
    exact (hwf.held_nodup p).map φ.injective
  · obtain ⟨p, rfl⟩ := φ.surjective p
    obtain ⟨c, rfl⟩ := φ.surjective c
    rw [h.held_eq, h.parent?_eq, mem_map_of_injective φ.injective, hwf.mem_held_iff]
    simp
  · obtain ⟨rank, hrank⟩ := hwf.grounded
    refine ⟨fun x => rank (φ.symm x), fun c p hparent => ?_⟩
    obtain ⟨c, rfl⟩ := φ.surjective c
    rw [h.parent?_eq] at hparent
    obtain ⟨q, hq, rfl⟩ := Option.map_eq_some_iff.mp hparent
    simpa using hrank c q hq

theorem map_fixed (hf : f .element = false) {ids : List PairId} (hids : ∀ x ∈ ids, f (t.kind x)) : ids.map φ = ids :=
  (map_congr_left fun x hx => h.fixed hf (hids x hx)).trans (map_id _)

theorem filter_map_eq (hf : f .element = false) (hshape : ∀ kind, f kind.shape = f kind) (ids : List PairId) :
    (ids.map φ).filter (fun x => f (t'.kind x)) = ids.filter fun x => f (t.kind x) := by
  have hflag : (fun x => f (t'.kind x)) ∘ φ = fun x => f (t.kind x) := funext (h.flag_eq hshape)
  rw [filter_map, hflag]
  exact h.map_fixed hf fun x hx => (mem_filter.mp hx).2

theorem chain_eq (n : Nat) (next : Option PairId) : t'.chain n (next.map φ) = (t.chain n next).map φ := by
  induction n generalizing next with
  | zero => rfl
  | succ n ih =>
    cases next with
    | none => rfl
    | some x =>
      simp only [Option.map_some, chain, map_cons]
      rw [h.parent?_eq, ih]

theorem ancestors_eq (x : PairId) : t'.ancestors (φ x) = (t.ancestors x).map φ := by
  rw [ancestors, h.parent?_eq, h.size_eq, h.chain_eq, ancestors]

theorem enclosingDefinition?_eq (x : PairId) : t'.enclosingDefinition? (φ x) = t.enclosingDefinition? x := by
  rw [enclosingDefinition?, enclosingDefinition?, ← head?_filter, ← head?_filter, h.ancestors_eq,
    h.filter_map_eq rfl Kind.isAliasDefinition_shape]

theorem definitionsTo_eq (n : Nat) (x : PairId) : t'.definitionsTo n (φ x) = t.definitionsTo n x := by
  induction n generalizing x with
  | zero => rfl
  | succ n ih =>
    simp only [definitionsTo, h.flag_eq Kind.isAliasDefinition_shape, h.flag_eq Kind.isDocument_shape,
      h.flag_eq Kind.isModule_shape, h.children_eq, flatMap_map, ih]
    split
    · rename_i hdef
      rw [h.fixed rfl hdef]
    · rfl

theorem hoisted_eq (owner : PairId) : t'.hoisted (φ owner) = t.hoisted owner := by
  simp only [hoisted, h.flag_eq Kind.isScopeOwner_shape, h.children_eq, h.size_eq, flatMap_map, h.definitionsTo_eq]

theorem namespaceDefinitions_eq (x : PairId) : t'.namespaceDefinitions (φ x) = t.namespaceDefinitions x := by
  rw [namespaceDefinitions, h.children_eq, h.filter_map_eq rfl Kind.isNamespaceDefinition_shape, namespaceDefinitions]

section

variable (hwf : t.WellFormed)

include hwf

theorem frame_eq (x : PairId) : t'.frame (φ x) = t.frame x := by
  have hsame : ∀ {f : Kind → Bool}, f .element = false → ∀ {d}, f (t.kind d) = true →
      (t'.get d).nameText = (t.get d).nameText ∧ (t'.get d).value = (t.get d).value := by
    intro f hf d hd
    have hname := h.eq_of_keeps Pair.nameText (fun _ => rfl) (fun _ => rfl) d
    have hvalue := h.eq_of_keeps Pair.value (fun _ => rfl) (fun _ => rfl) d
    rw [h.fixed hf hd] at hname hvalue
    exact ⟨hname, hvalue⟩
  rw [frame, frame, h.hoisted_eq, h.namespaceDefinitions_eq]
  congr 1
  · refine map_congr_left fun d hd => ?_
    rw [(hsame (f := Kind.isAliasDefinition) rfl (hwf.mem_hoisted_iff.mp hd).kind).1]
  · refine map_congr_left fun d hd => ?_
    obtain ⟨hname, hvalue⟩ := hsame (f := Kind.isNamespaceDefinition) rfl (mem_filter.mp hd).2
    rw [hname, hvalue]

theorem enter_eq (x : PairId) (scope : Scope) : t'.enter (φ x) scope = t.enter x scope := by
  have hdeclares : t'.declares (φ x) = t.declares x := by
    rw [declares, declares, h.flag_eq Kind.isScopeOwner_shape, h.namespaceDefinitions_eq]
  rw [enter, enter, hdeclares, h.frame_eq hwf]

theorem enterFully_eq (scope : Scope) (x : PairId) : t'.enterFully scope (φ x) = t.enterFully scope x := by
  have hprefix := h.eq_of_keeps Pair.nsPrefix (fun _ => rfl) (fun _ => rfl) x
  simp only [enterFully, openedNamespace?, h.enter_eq hwf, h.flag_eq Kind.isScope_shape, hprefix]

theorem scopeInside_eq (root : Scope) (x : PairId) : t'.scopeInside root (φ x) = t.scopeInside root x := by
  have hpath : t'.pathTo (φ x) = (t.pathTo x).map φ := by
    rw [pathTo, pathTo, h.ancestors_eq, map_append, map_reverse, map_singleton]
  rw [scopeInside, hpath, foldl_map, scopeInside]
  exact congrArg (fun f => List.foldl f root (t.pathTo x))
    (funext fun scope => funext fun x => h.enterFully_eq hwf scope x)

theorem scopeAround_eq (root : Scope) (x : PairId) : t'.scopeAround root (φ x) = t.scopeAround root x := by
  rw [scopeAround, scopeAround, h.parent?_eq]
  cases t.parent? x with
  | none => rfl
  | some p => exact h.scopeInside_eq hwf root p

end

theorem openScope_eq (x : PairId) (inner : Scope) : t'.openScope (φ x) inner = t.openScope x inner := by
  have huri := h.eq_of_keeps Pair.namespaceUri (fun _ => rfl) (fun _ => rfl) x
  have hscope : (t'.get (φ x)).kind.isScope = (t.get x).kind.isScope := h.flag_eq Kind.isScope_shape x
  simp only [openScope, huri, hscope]

end

end Renumbers

end PairTree

/-- What resolving may write on a pair: on its kind, the kind of its value and its namespace. -/
def Pair.annotate (kind : Kind → Kind) (valueKind : ValueKind → ValueKind)
    (uri : Option String → Option String) (pair : Pair) : Pair :=
  { pair with
    kind := kind pair.kind
    valueKind := valueKind pair.valueKind
    namespaceUri := uri pair.namespaceUri }

namespace PairTree

variable {φ : Equiv.Perm PairId} {t t' : PairTree} {x : PairId} {s : PairId} {u v : PairTree}

theorem IsSplit.get_eq (h : t.IsSplit t' s) (hwf : t.WellFormed) (hx : x ≠ t.size) :
    t'.get x = { (if x = s then { t.get x with name := none, children := [t.size], valueKind := .object }
      else t.get x) with parent := if x ∈ t.children s then some t.size else t.parent? x } := by
  have hself : s ∉ t.children s := fun hmem => by
    have hparent := hwf.mem_held_iff.mp (mem_held_of_mem_children hmem)
    exact hwf.not_mem_ancestors_self s (hwf.mem_ancestors_of_parent hparent)
  by_cases hxs : x = s
  · subst hxs
    rw [h.scope, if_pos rfl, if_neg hself]
    rfl
  · by_cases hmem : x ∈ t.children s
    · rw [h.child x hmem, if_neg hxs, if_pos hmem]
    · rw [h.other x hx hxs hmem, if_neg hxs, if_neg hmem]
      rfl

namespace Renumbers

theorem of_plain (hsize : t'.size = t.size) (hplain : ∀ x, (t'.get x).plain = (t.get x).plain) :
    Renumbers (Equiv.refl PairId) t t' where
  size_eq := hsize
  fixes _ _ := rfl
  plain_eq x := (hplain x).trans (Pair.renumber_id _).symm

section

variable (h : Renumbers φ t t')

include h

theorem namedScope_iff (x : PairId) : t'.NamedScope (φ x) ↔ t.NamedScope x := by
  have hname := h.eq_of_keeps Pair.name (fun _ => rfl) (fun _ => rfl) x
  rw [NamedScope, NamedScope, h.flag_eq Kind.isScope_shape, hname]

theorem modify (x : PairId) {kind : Kind → Kind} (valueKind : ValueKind → ValueKind)
    (uri : Option String → Option String) (hkind : ∀ a b, a.plain = b.plain → (kind a).plain = (kind b).plain)
    (helement : (kind (t.kind x)).isElement = (t.kind x).isElement) :
    Renumbers φ (t.modify x (Pair.annotate kind valueKind uri))
      (t'.modify (φ x) (Pair.annotate kind valueKind uri)) where
  size_eq := by rw [size_modify, size_modify, h.size_eq]
  fixes y hy := by
    refine h.fixes y ?_
    rw [PairTree.kind, get_modify] at hy
    split at hy
    · rename_i hyx
      rw [hyx.1] at hy ⊢
      exact helement.symm.trans hy
    · exact hy
  plain_eq y := by
    have hcond : (φ y = φ x ∧ φ y < t'.size) ↔ (y = x ∧ y < t.size) := by
      rw [φ.apply_eq_iff_eq, h.size_eq, h.lt_size_iff]
    rw [get_modify, get_modify]
    by_cases hy : y = x ∧ y < t.size
    · have hsame := h.plain_eq y
      rw [if_pos hy, if_pos (hcond.mpr hy)]
      simp only [Pair.plain, Pair.renumber, Pair.mk.injEq] at hsame
      simp only [Pair.plain, Pair.annotate, Pair.renumber, Pair.mk.injEq]
      simp only [hsame, and_true]
      exact hkind _ _ hsame.1
    · rw [if_neg hy, if_neg (mt hcond.mp hy)]
      exact h.plain_eq y

theorem splitScope (hwf : t.WellFormed) (x : PairId) : Renumbers φ (t.splitScope x) (t'.splitScope (φ x)) := by
  by_cases hnamed : t.NamedScope x
  · have hfixed : φ x = x := h.fixed (f := Kind.isScope) rfl hnamed.1
    have hsplit := isSplit_splitScope hwf hnamed
    have hsplit' := isSplit_splitScope (h.wellFormed hwf) ((h.namedScope_iff x).mpr hnamed)
    have hnew : φ t.size = t.size := h.fixed_of_le le_rfl
    generalize t.splitScope x = u at hsplit ⊢
    generalize t'.splitScope (φ x) = u' at hsplit' ⊢
    refine ⟨by rw [hsplit'.size_eq, hsplit.size_eq, h.size_eq], fun y hy => h.fixes y ?_, fun y => ?_⟩
    · by_cases hyn : y = t.size
      · rw [hyn, hsplit.kind_element] at hy
        cases hy
      · exact hsplit.kind_eq hyn ▸ hy
    · by_cases hyn : y = t.size
      · subst hyn
        have hinner := h.eq_of_keeps innerElement (fun _ => rfl) (fun _ => rfl) x
        rw [hnew, ← h.size_eq, hsplit'.element, h.size_eq, hsplit.element, h.children_eq, hinner]
        rfl
      · have hyn' : φ y ≠ t'.size := by
          rw [h.size_eq, ← hnew, φ.injective.ne_iff]
          exact hyn
        have hmem : φ y ∈ t'.children (φ x) ↔ y ∈ t.children x := by
          rw [h.children_eq, mem_map_of_injective φ.injective]
        have hsame := h.plain_eq y
        rw [hsplit.get_eq hwf hyn, hsplit'.get_eq (h.wellFormed hwf) hyn', h.size_eq]
        simp only [hmem, φ.apply_eq_iff_eq, h.parent?_eq]
        simp only [Pair.plain, Pair.renumber, Pair.mk.injEq] at hsame
        simp only [Pair.plain, Pair.renumber, Pair.mk.injEq]
        split <;> split <;> simp [hsame, hnew]
  · rw [splitScope_of_not hnamed, splitScope_of_not (mt (h.namedScope_iff x).mp hnamed)]
    exact h

end

end Renumbers

namespace IsSplit

variable {s : PairId}

theorem not_namedScope (h : t.IsSplit t' s) : ¬ t'.NamedScope s := fun hnamed =>
  hnamed.2 (by rw [h.scope])

theorem namedScope_iff (h : t.IsSplit t' s) (hxs : x ≠ s) : t'.NamedScope x ↔ t.NamedScope x := by
  by_cases hx : x = t.size
  · subst hx
    refine iff_of_false (fun hnamed => ?_) fun hnamed => lt_irrefl _ hnamed.lt_size
    have hscope := hnamed.1
    rw [h.kind_element] at hscope
    cases hscope
  · have hname := h.eq_of_keeps Pair.name hx (fun _ _ => rfl) fun heq => absurd heq hxs
    rw [NamedScope, NamedScope, h.kind_eq hx, hname]

/-- The scope and its children aside, what was said of a pair is said of it still. -/
theorem innerElement_eq (h : t.IsSplit t' s) (hx : x ≠ t.size) (hxs : x ≠ s) :
    innerElement (t'.get x) = innerElement (t.get x) :=
  h.eq_of_keeps innerElement hx (fun _ _ => rfl) fun heq => absurd heq hxs

end IsSplit

/-- Two splits, for the pairs that were there before both of them. -/
theorem IsSplit.get_twice (hwf : t.WellFormed) (hxs : x ≠ s) (hx : x < t.size)
    (hs : s < t.size) (hu : t.IsSplit u x) (hv : u.IsSplit v s) {y : PairId} (hy : y < t.size) :
    v.get y = { t.get y with
      name := if y = x ∨ y = s then none else (t.get y).name
      children := if y = x then [t.size] else if y = s then [t.size + 1] else t.children y
      valueKind := if y = x ∨ y = s then .object else (t.get y).valueKind
      parent := if y ∈ t.children s then some (t.size + 1) else
        if y ∈ t.children x then some t.size else t.parent? y } := by
  have hyu : y ≠ u.size := by
    rw [hu.size_eq]
    exact (Nat.lt_succ_of_lt hy).ne
  rw [hv.get_eq (hu.wellFormed hwf hx) hyu, hu.children_eq hs.ne hxs.symm, hu.size_eq, parent?, hu.get_eq hwf hy.ne]
  by_cases hyx : y = x
  · have hys : y ≠ s := fun heq => hxs (hyx.symm.trans heq)
    simp [hyx, hxs]
  · by_cases hys : y = s
    · simp [hys, hxs.symm]
    · simp [hyx, hys, children]

theorem IsSplit.elements_twice (hwf : t.WellFormed) (hxs : x ≠ s)
    (hs : s < t.size) (hu : t.IsSplit u x) (hv : u.IsSplit v s) :
    v.get t.size = { innerElement (t.get x) with children := t.children x, parent := some x } ∧
      v.get (t.size + 1) = { innerElement (t.get s) with children := t.children s, parent := some s } := by
  have hchildren := hu.children_eq hs.ne hxs.symm
  constructor
  · rw [hv.other t.size (by simp [hu.size_eq]) hs.ne' fun hmem => ?_, hu.element]
    rw [hchildren] at hmem
    exact lt_irrefl _ (hwf.held_lt_size (mem_held_of_mem_children hmem))
  · rw [← hu.size_eq, hv.element, hu.innerElement_eq hs.ne hxs.symm, hchildren]

/-- In whatever order two scopes are split, the same comes of it but for the numbers of the two
    new elements. -/
theorem renumbers_of_splits {u' v' : PairTree} (hwf : t.WellFormed) (hxs : x ≠ s)
    (hx : x < t.size) (hs : s < t.size) (hu : t.IsSplit u x) (hv : u.IsSplit v s) (hu' : t.IsSplit u' s)
    (hv' : u'.IsSplit v' x) : Renumbers (Equiv.swap t.size (t.size + 1)) v v' := by
  obtain ⟨hfirst, hsecond⟩ := IsSplit.elements_twice hwf hxs hs hu hv
  obtain ⟨hfirst', hsecond'⟩ := IsSplit.elements_twice hwf hxs.symm hx hu' hv'
  have hsize : v.size = t.size + 2 ∧ v'.size = t.size + 2 := by
    rw [hv.size_eq, hu.size_eq, hv'.size_eq, hu'.size_eq]
    exact ⟨rfl, rfl⟩
  have hold : ∀ y, y < t.size → Equiv.swap t.size (t.size + 1) y = y := fun y hy =>
    Equiv.swap_apply_of_ne_of_ne hy.ne (Nat.lt_succ_of_lt hy).ne
  have hsame : ∀ y, (t.get y).renumber (Equiv.swap t.size (t.size + 1)) = t.get y := fun y =>
    Pair.renumber_of_fixed (fun _ hz => hold _ (hwf.held_lt_size hz)) fun _ hp => hold _ (hwf.parent_lt_size hp)
  have hchildren : ∀ y, (t.children y).map _ = t.children y := fun y => congrArg Pair.children (hsame y)
  refine ⟨hsize.2.trans hsize.1.symm, fun y hy => ?_, fun y => ?_⟩
  · refine Equiv.swap_apply_of_ne_of_ne ?_ ?_
    · rintro rfl
      rw [kind, hfirst] at hy
      cases hy
    · rintro rfl
      rw [kind, hsecond] at hy
      cases hy
  · have hcases : ∀ n m : Nat, n < m ∨ n = m ∨ n = m + 1 ∨ m + 2 ≤ n := by omega
    obtain hy | rfl | rfl | hy := hcases y t.size
    · have hitems : (t.get y).items.map (List.map _) = (t.get y).items := congrArg Pair.items (hsame y)
      have hparent : (t.parent? y).map _ = t.parent? y := congrArg Pair.parent (hsame y)
      have hnot : y ∈ t.children x → y ∉ t.children s := fun hyx hys => by
        have hparent := hwf.mem_held_iff.mp (mem_held_of_mem_children hyx)
        rw [hwf.mem_held_iff.mp (mem_held_of_mem_children hys)] at hparent
        exact hxs (Option.some.inj hparent).symm
      rw [hold y hy, IsSplit.get_twice hwf hxs hx hs hu hv hy, IsSplit.get_twice hwf hxs.symm hs hx hu' hv' hy]
      simp only [Pair.plain, Pair.renumber, hitems, Pair.mk.injEq, true_and, and_true, or_comm]
      constructor
      · by_cases hyx : y = x
        · simp [hyx, hxs]
        · by_cases hys : y = s
          · simp [hys, hxs.symm]
          · simp [hyx, hys, hchildren]
      · by_cases hyx : y ∈ t.children x
        · simp [hyx, hnot hyx]
        · by_cases hys : y ∈ t.children s
          · simp [hyx, hys]
          · simp [hyx, hys, hparent]
    · rw [Equiv.swap_apply_left, hsecond', hfirst]
      simp [Pair.plain, Pair.renumber, innerElement, Pair.bare, hchildren, hold x hx]
    · rw [Equiv.swap_apply_right, hfirst', hsecond]
      simp [Pair.plain, Pair.renumber, innerElement, Pair.bare, hchildren, hold s hs]
    · rw [Equiv.swap_apply_of_ne_of_ne, get_eq_default (hsize.2 ▸ hy), get_eq_default (hsize.1 ▸ hy)]
      · rfl
      · exact ((Nat.lt_add_of_pos_right Nat.two_pos).trans_le hy).ne'
      · exact (ne_of_lt hy).symm

/-- Scopes may be split in either order. The pairs that were there before keep their numbers. -/
theorem exists_renumbers_splitScope (hwf : t.WellFormed) (x s : PairId) : ∃ σ : Equiv.Perm PairId,
    Renumbers σ ((t.splitScope x).splitScope s) ((t.splitScope s).splitScope x) ∧ ∀ y, y < t.size → σ y = y := by
  by_cases hxs : x = s
  · subst hxs
    exact ⟨_, .refl _, fun _ _ => rfl⟩
  by_cases hx : t.NamedScope x
  · have hu := isSplit_splitScope hwf hx
    by_cases hs : t.NamedScope s
    · have hu' := isSplit_splitScope hwf hs
      have hv := isSplit_splitScope (hu.wellFormed hwf hx.lt_size) ((hu.namedScope_iff (Ne.symm hxs)).mpr hs)
      have hv' := isSplit_splitScope (hu'.wellFormed hwf hs.lt_size) ((hu'.namedScope_iff hxs).mpr hx)
      refine ⟨_, renumbers_of_splits hwf hxs hx.lt_size hs.lt_size hu hv hu' hv', fun y hy => ?_⟩
      exact Equiv.swap_apply_of_ne_of_ne hy.ne (Nat.lt_succ_of_lt hy).ne
    · rw [splitScope_of_not hs, splitScope_of_not (mt (hu.namedScope_iff (Ne.symm hxs)).mp hs)]
      exact ⟨_, .refl _, fun _ _ => rfl⟩
  · have hx' : ¬ (t.splitScope s).NamedScope x := by
      by_cases hs : t.NamedScope s
      · exact mt ((isSplit_splitScope hwf hs).namedScope_iff hxs).mp hx
      · rwa [splitScope_of_not hs]
    rw [splitScope_of_not hx, splitScope_of_not hx']
    exact ⟨_, .refl _, fun _ _ => rfl⟩

/-- It does not matter whether something is written on a pair before or after a scope is split, if that
    is another pair or the scope was split before. -/
theorem splitScope_modify (hwf : t.WellFormed) (hx : x < t.size) (hxs : x = s → ¬ t.NamedScope s)
    {kind : Kind → Kind} (valueKind : ValueKind → ValueKind) (uri : Option String → Option String)
    (hscope : (kind (t.kind x)).isScope = (t.kind x).isScope) :
    (t.modify x (Pair.annotate kind valueKind uri)).splitScope s =
      (t.splitScope s).modify x (Pair.annotate kind valueKind uri) := by
  have hwf' : (t.modify x (Pair.annotate kind valueKind uri)).WellFormed := hwf.modify x (fun _ => rfl) fun _ => rfl
  have hnamed' : (t.modify x (Pair.annotate kind valueKind uri)).NamedScope s ↔ t.NamedScope s := by
    rw [NamedScope, NamedScope, PairTree.kind, get_modify]
    split
    · rename_i h
      rw [h.1] at *
      change (kind (t.kind x)).isScope = true ∧ _ ↔ _
      rw [hscope]
      rfl
    · rfl
  by_cases hnamed : t.NamedScope s
  · have hne : x ≠ s := fun heq => hxs heq hnamed
    have hsplit := isSplit_splitScope hwf hnamed
    have hsplit' := isSplit_splitScope hwf' (hnamed'.mpr hnamed)
    generalize t.splitScope s = u at hsplit ⊢
    generalize (t.modify x (Pair.annotate kind valueKind uri)).splitScope s = u' at hsplit' ⊢
    have hchildren : ∀ y, (t.modify x (Pair.annotate kind valueKind uri)).children y = t.children y := fun y =>
      modify_eq_of_keeps Pair.children t x y fun _ => rfl
    refine ext_get (by rw [hsplit'.size_eq, size_modify, size_modify, hsplit.size_eq]) fun y => ?_
    by_cases hy : y = t.size
    · have hyx : y ≠ x := fun heq => hx.ne (heq.symm.trans hy)
      rw [get_modify_of_ne hyx, hy, hsplit.element, ← size_modify t x (Pair.annotate kind valueKind uri),
        hsplit'.element, hchildren, get_modify_of_ne hne.symm]
    · have hlt : y = x → y < u.size := fun heq => by
        rw [heq, hsplit.size_eq]
        exact Nat.lt_succ_of_lt hx
      rw [hsplit'.get_eq hwf' (by rwa [size_modify]), hchildren, size_modify, parent?, get_modify, get_modify,
        hsplit.get_eq hwf hy]
      by_cases hyx : y = x
      · subst hyx
        simp [hne, hx, hlt, Pair.annotate, parent?]
      · simp [hyx, parent?]
  · rw [splitScope_of_not hnamed, splitScope_of_not (mt hnamed'.mp hnamed)]

end PairTree

end PairMarkup
