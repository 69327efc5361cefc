import PairMarkup.Proofs.Tree.Split

namespace PairMarkup

open List Kind

namespace PairTree

/-- The namespace that the first definition of the prefix directly in a pair gives to it. -/
def declaredAs? (t : PairTree) (before : String) (a : PairId) : Option String :=
  ((t.namespaceDefinitions a).find? fun d => (t.get d).nameText = before).map fun d =>
    (t.get d).value.getD ""

/-- What a prefix stands for if nothing around says so: `xml` for itself, and anything else for
    what the first module that defines it says. -/
def namespaceOutside? (t : PairTree) (modules : List PairId) (before : String) : Option String :=
  (if before = "xml" then some xmlNamespace else none).or (modules.findSome? (t.declaredAs? before))

/-- What a prefix stands for right outside of a pair. -/
def namespaceAround? (t : PairTree) (modules : List PairId) (before : String) (x : PairId) : Option String :=
  ((t.ancestors x).findSome? (t.declaredAs? before)).or (t.namespaceOutside? modules before)

/-- What a prefix stands for at a pair. The nearest that directly holds a definition of it
    decides, the pair itself first. -/
def namespaceAt? (t : PairTree) (modules : List PairId) (before : String) (x : PairId) : Option String :=
  ((x :: t.ancestors x).findSome? (t.declaredAs? before)).or (t.namespaceOutside? modules before)

/-- The namespace that a scope makes the default inside of it: that of its own prefix. -/
def openedAt? (t : PairTree) (modules : List PairId) (s : PairId) : Option String :=
  if (t.kind s).isScope then (t.get s).nsPrefix.bind fun before => t.namespaceAt? modules before s
  else none

/-- The default namespace at a pair: that of the nearest scope around whose prefix stands for
    something. -/
def defaultAround? (t : PairTree) (modules : List PairId) (x : PairId) : Option String :=
  (t.ancestors x).findSome? (t.openedAt? modules)

/-- The namespace that an element, an attribute or a scope is in. -/
def namespaceOf? (t : PairTree) (modules : List PairId) (x : PairId) : Option String :=
  match (t.get x).nsPrefix with
  | some before => t.namespaceAt? modules before x
  | none => if (t.kind x).isElement then t.defaultAround? modules x else none

variable {t : PairTree} {modules : List PairId} {x : PairId} {before : String}

theorem findSome?_cons_or {α β : Type} (f : α → Option β) (a : α) (as : List α) :
    (a :: as).findSome? f = (f a).or (as.findSome? f) := by
  rw [findSome?_cons]
  cases f a <;> rfl

theorem namespaceOutside?_congr {t' : PairTree}
    (h : ∀ m ∈ modules, t'.declaredAs? before m = t.declaredAs? before m) :
    t'.namespaceOutside? modules before = t.namespaceOutside? modules before := by
  rw [namespaceOutside?, namespaceOutside?]
  refine congrArg (Option.or _) ?_
  induction modules with
  | nil => rfl
  | cons m ms ih =>
    rw [findSome?_cons_or, findSome?_cons_or, h m mem_cons_self, ih fun m hm => h m (mem_cons_of_mem _ hm)]

theorem namespaceAt?_eq (t : PairTree) (modules : List PairId) (before : String) (x : PairId) :
    t.namespaceAt? modules before x = (t.declaredAs? before x).or (t.namespaceAround? modules before x) := by
  rw [namespaceAt?, findSome?_cons_or, Option.or_assoc, namespaceAround?]

theorem namespaceOf?_of_prefixed (h : (t.get x).nsPrefix = some before) :
    t.namespaceOf? modules x = t.namespaceAt? modules before x := by
  rw [namespaceOf?, h]

theorem namespaceOf?_of_element (h : (t.get x).nsPrefix = none)
    (hkind : (t.kind x).isElement) : t.namespaceOf? modules x = t.defaultAround? modules x := by
  rw [namespaceOf?, h]
  exact if_pos hkind

theorem namespaceOf?_of_other (h : (t.get x).nsPrefix = none)
    (hkind : ¬ (t.kind x).isElement) : t.namespaceOf? modules x = none := by
  rw [namespaceOf?, h]
  exact if_neg hkind

theorem namespaceAround?_of_root (h : t.parent? x = none) (before : String) :
    t.namespaceAround? modules before x = t.namespaceOutside? modules before := by
  rw [namespaceAround?, ancestors_eq_nil h]
  rfl

theorem defaultAround?_of_root (h : t.parent? x = none) : t.defaultAround? modules x = none := by
  rw [defaultAround?, ancestors_eq_nil h]
  rfl

theorem openedAt?_of_not_scope {s : PairId} (h : (t.kind s).isScope = false) : t.openedAt? modules s = none := by
  rw [openedAt?, h]
  rfl

namespace WellFormed

variable (hwf : t.WellFormed)

include hwf

theorem namespaceAround?_of_parent {x p : PairId} (h : t.parent? x = some p) (before : String) :
    t.namespaceAround? modules before x = t.namespaceAt? modules before p := by
  rw [namespaceAround?, hwf.ancestors_eq_cons h, namespaceAt?]

theorem defaultAround?_of_parent {x p : PairId} (h : t.parent? x = some p) :
    t.defaultAround? modules x = (t.openedAt? modules p).or (t.defaultAround? modules p) := by
  rw [defaultAround?, hwf.ancestors_eq_cons h, findSome?_cons_or, defaultAround?]

end WellFormed

section Shape

section

variable (t : PairTree)

theorem value_shape (x : PairId) : (t.shape.get x).value = (t.get x).value := by
  rw [get_shape]
  rfl

theorem nsPrefix_shape (x : PairId) : (t.shape.get x).nsPrefix = (t.get x).nsPrefix := by
  rw [get_shape]
  rfl

@[simp] theorem declaredAs?_shape (before : String) (a : PairId) :
    t.shape.declaredAs? before a = t.declaredAs? before a := by
  simp only [declaredAs?, namespaceDefinitions, children_shape, kind_shape,
    isNamespaceDefinition_shape, nameText_shape, value_shape]

section

variable (modules : List PairId) (before : String)

@[simp] theorem namespaceOutside?_shape :
    t.shape.namespaceOutside? modules before = t.namespaceOutside? modules before := by
  simp only [namespaceOutside?, funext (declaredAs?_shape t before)]

@[simp] theorem namespaceAround?_shape
    (x : PairId) : t.shape.namespaceAround? modules before x = t.namespaceAround? modules before x := by
  simp only [namespaceAround?, namespaceOutside?_shape, ancestors_shape, funext (declaredAs?_shape t before)]

@[simp] theorem namespaceAt?_shape
    (x : PairId) : t.shape.namespaceAt? modules before x = t.namespaceAt? modules before x := by
  rw [namespaceAt?_eq, namespaceAt?_eq, declaredAs?_shape, namespaceAround?_shape]

@[simp] theorem openedAt?_shape (s : PairId) : t.shape.openedAt? modules s = t.openedAt? modules s := by
  simp only [openedAt?, kind_shape, isScope_shape, nsPrefix_shape, namespaceAt?_shape]

@[simp] theorem defaultAround?_shape (x : PairId) : t.shape.defaultAround? modules x = t.defaultAround? modules x := by
  simp only [defaultAround?, ancestors_shape, funext (openedAt?_shape t modules)]

end

end

end Shape

theorem lookup_namespaces (t : PairTree) (before : String) (a : PairId) :
    (t.frame a).namespaces.lookup before = t.declaredAs? before a := by
  unfold frame declaredAs?
  induction t.namespaceDefinitions a with
  | nil => rfl
  | cons d ds ih =>
    by_cases hname : (t.get d).nameText = before
    · subst hname
      simp
    · have hne : (before == (t.get d).nameText) = false := beq_false_of_ne (Ne.symm hname)
      simpa [lookup_cons, hname, hne] using ih

theorem declaredAs?_eq_none_of_empty {a : PairId} (h : t.namespaceDefinitions a = []) (before : String) :
    t.declaredAs? before a = none := by
  rw [declaredAs?, h]
  rfl

end PairTree

namespace Scope

open PairTree

variable (t : PairTree) (before : String)

section

variable (id : PairId) (inner scope : Scope)

theorem namespaceFor?_enter : (t.enter id scope).namespaceFor? before =
      (t.declaredAs? before id).or (scope.namespaceFor? before) := by
  unfold enter
  split
  · rw [namespaceFor?, lookup_namespaces]
  · rename_i h
    simp only [declares, Bool.or_eq_true, not_or, Bool.not_eq_true, Bool.not_eq_false', List.isEmpty_iff] at h
    rw [declaredAs?_eq_none_of_empty h.2, Option.none_or]

theorem defaultNamespace?_enter : (t.enter id scope).defaultNamespace? = scope.defaultNamespace? := by
  unfold enter
  split <;> rfl

theorem namespaceFor?_openScope : (t.openScope id inner).namespaceFor? before = inner.namespaceFor? before := by
  simp only [openScope]
  split <;> rfl

theorem defaultNamespace?_openScope : (t.openScope id inner).defaultNamespace? =
      (if (t.kind id).isScope then (t.get id).namespaceUri else none).or inner.defaultNamespace? := by
  unfold openScope
  dsimp only
  by_cases hscope : (t.kind id).isScope = true
  · rw [if_pos hscope, if_pos (show (t.get id).kind.isScope = true from hscope)]
    cases (t.get id).namespaceUri <;> rfl
  · rw [if_neg hscope, if_neg (show ¬ (t.get id).kind.isScope = true from hscope)]
    rfl

theorem namespaceFor?_enterFully : (t.enterFully scope id).namespaceFor? before =
      (t.declaredAs? before id).or (scope.namespaceFor? before) := by
  rw [← namespaceFor?_enter]
  simp only [enterFully]
  split <;> rfl

theorem defaultNamespace?_enterFully : (t.enterFully scope id).defaultNamespace? =
      (t.openedNamespace? id (t.enter id scope)).or scope.defaultNamespace? := by
  rw [← defaultNamespace?_enter t id scope]
  simp only [enterFully]
  split
  · rename_i h
    rw [h]
    rfl
  · rename_i h
    rw [h]
    rfl

end

theorem namespaceFor?_globalScope (set : ModuleSet) :
    set.globalScope.namespaceFor? before = set.tree.namespaceOutside? set.modules before := by
  have hmodules : ((set.modules.map set.tree.frame).flatMap (·.namespaces)).lookup before =
      set.modules.findSome? (set.tree.declaredAs? before) := by
    induction set.modules with
    | nil => rfl
    | cons m ms ih =>
      rw [map_cons, flatMap_cons, lookup_append, lookup_namespaces, ih, findSome?_cons_or]
  simp only [ModuleSet.globalScope, namespaceFor?, Option.or_none, namespaceOutside?, lookup_cons, hmodules]
  by_cases hxml : before = "xml"
  · simp [hxml]
  · simp [hxml, beq_false_of_ne hxml]

variable {t} {modules : List PairId} {root : Scope}

section

variable (hwf : t.WellFormed) (hroot : root.namespaceFor? before = t.namespaceOutside? modules before) (x : PairId)

include hwf hroot

/-- The scope that is found along the path to a pair knows the namespaces there. -/
theorem namespaceFor?_scopeInside : (t.scopeInside root x).namespaceFor? before = t.namespaceAt? modules before x := by
  induction x using hwf.induction_up with
  | root x hx =>
    rw [namespaceAt?_eq, namespaceAround?_of_root hx, ← hroot, ← namespaceFor?_enterFully]
    simp [scopeInside, pathTo, ancestors_eq_nil hx]
  | child x p hp ih =>
    rw [namespaceAt?_eq, hwf.namespaceAround?_of_parent hp, ← ih, ← namespaceFor?_enterFully]
    simp only [scopeInside, pathTo, hwf.ancestors_eq_cons hp, reverse_cons, foldl_append, foldl_cons, foldl_nil]

theorem namespaceFor?_scopeAround :
    (t.scopeAround root x).namespaceFor? before = t.namespaceAround? modules before x := by
  unfold scopeAround
  split
  · rename_i hx
    rw [hroot, namespaceAround?_of_root hx]
  · rename_i p hp
    rw [namespaceFor?_scopeInside before hwf hroot, hwf.namespaceAround?_of_parent hp]

end

/-- Who knows the namespaces around a pair knows which one the pair opens. -/
theorem openedNamespace?_enter {id : PairId} {scope : Scope}
    (h : ∀ before, scope.namespaceFor? before = t.namespaceAround? modules before id) :
    t.openedNamespace? id (t.enter id scope) = t.openedAt? modules id := by
  have hinner : ∀ before, (t.enter id scope).namespaceFor? before = t.namespaceAt? modules before id := by
    intro before
    rw [namespaceFor?_enter, h, namespaceAt?_eq]
  simp only [openedNamespace?, openedAt?, funext hinner]

section

variable (hwf : t.WellFormed)
  (hroot : ∀ before, root.namespaceFor? before = t.namespaceOutside? modules before)
  (hdefault : root.defaultNamespace? = none)

include hwf hroot hdefault

theorem defaultNamespace?_scopeInside (x : PairId) : (t.scopeInside root x).defaultNamespace? =
      (t.openedAt? modules x).or (t.defaultAround? modules x) := by
  induction x using hwf.induction_up with
  | root x hx =>
    have hinside : t.scopeInside root x = t.enterFully root x := by
      simp [scopeInside, pathTo, ancestors_eq_nil hx]
    rw [hinside, defaultNamespace?_enterFully, hdefault, defaultAround?_of_root hx,
      openedNamespace?_enter fun before => (hroot before).trans (namespaceAround?_of_root hx before).symm]
  | child x p hp ih =>
    have hinside : t.scopeInside root x = t.enterFully (t.scopeInside root p) x := by
      simp only [scopeInside, pathTo, hwf.ancestors_eq_cons hp, reverse_cons, foldl_append, foldl_cons, foldl_nil]
    rw [hinside, defaultNamespace?_enterFully, ih, hwf.defaultAround?_of_parent hp,
      openedNamespace?_enter fun before => ?_]
    rw [namespaceFor?_scopeInside before hwf (hroot before), hwf.namespaceAround?_of_parent hp]

theorem defaultNamespace?_scopeAround (x : PairId) :
    (t.scopeAround root x).defaultNamespace? = t.defaultAround? modules x := by
  unfold scopeAround
  split
  · rename_i hx
    rw [hdefault, defaultAround?_of_root hx]
  · rename_i p hp
    rw [defaultNamespace?_scopeInside hwf hroot hdefault, hwf.defaultAround?_of_parent hp]

end

end Scope

namespace PairTree

/-- Neither a pair nor anything around it is a part of the value of `s`. -/
def OffItems (t : PairTree) (s x : PairId) : Prop := ∀ y ∈ x :: t.ancestors x, y ∉ (t.get s).items.getD []

/-- A scope with a local name that directly holds a definition of its own prefix. -/
def Shadows (t : PairTree) (s : PairId) : Prop :=
  t.NamedScope s ∧ ∃ before, (t.get s).nsPrefix = some before ∧ t.declaredAs? before s ≠ none

instance (t : PairTree) (s : PairId) : Decidable (t.NamedScope s) :=
  inferInstanceAs (Decidable (_ ∧ _))

instance (t : PairTree) (s : PairId) : Decidable (t.Shadows s) :=
  decidable_of_iff (t.NamedScope s ∧ ((t.get s).nsPrefix.bind (t.declaredAs? · s)) ≠ none) <| by
    rw [Shadows]
    cases (t.get s).nsPrefix <;> simp

variable {t t' : PairTree} {modules : List PairId} {s : PairId}

theorem OffItems.of_parent (hwf : t.WellFormed) {x p : PairId} (h : t.OffItems s x)
    (hp : t.parent? x = some p) : t.OffItems s p := by
  intro y hy
  refine h y (mem_cons_of_mem _ ?_)
  rw [hwf.ancestors_eq_cons hp]
  exact hy

theorem Shadows.of_shape (h : t'.Shadows s) (hshape : t'.shape = t.shape) : t.Shadows s := by
  obtain ⟨⟨hscope, hname⟩, before, hprefix, hdeclared⟩ := h
  have hsame : (t'.get s).shape.name = (t.get s).shape.name := by rw [← get_shape, hshape, get_shape]
  refine ⟨⟨isScope_eq_of_shape hshape s ▸ hscope, fun hnone => hname (hsame.trans hnone)⟩, before, ?_, ?_⟩
  · rw [← nsPrefix_shape, ← hshape, nsPrefix_shape, hprefix]
  · rw [← declaredAs?_shape, ← hshape, declaredAs?_shape]
    exact hdeclared

theorem declaredAs?_congr {a a' : PairId} (hdefs : t'.namespaceDefinitions a' = t.namespaceDefinitions a)
    (hsame : ∀ d ∈ t.namespaceDefinitions a, (t'.get d).nameText = (t.get d).nameText ∧
      (t'.get d).value = (t.get d).value) (before : String) :
    t'.declaredAs? before a' = t.declaredAs? before a := by
  rw [declaredAs?, declaredAs?, hdefs]
  generalize t.namespaceDefinitions a = ds at hsame
  induction ds with
  | nil => rfl
  | cons d ds ih =>
    obtain ⟨hname, hvalue⟩ := hsame d mem_cons_self
    have hrest := ih fun d hd => hsame d (mem_cons_of_mem _ hd)
    rw [find?_cons, find?_cons, hname]
    split
    · simp only [Option.map_some, hvalue]
    · exact hrest

namespace IsSplit

variable (h : t.IsSplit t' s) (hnamed : t.NamedScope s) {x : PairId}

include h hnamed

theorem declaredAs?_of_children {a a' : PairId} (hchildren : t'.children a' = t.children a)
    (before : String) : t'.declaredAs? before a' = t.declaredAs? before a := by
  refine declaredAs?_congr ?_ (fun d hd => ?_) before
  · rw [namespaceDefinitions, namespaceDefinitions, hchildren]
    exact congrArg (List.filter · _) (funext fun c => h.flag_eq (f := isNamespaceDefinition) rfl c)
  · have hkind := (mem_filter.mp hd).2
    have hne : d ≠ t.size := by
      rintro rfl
      rw [kind, get_eq_default le_rfl] at hkind
      cases hkind
    have hnes : d ≠ s := by
      rintro rfl
      have hscope := hnamed.1
      cases hk : t.kind d <;> simp [hk, isNamespaceDefinition, isScope] at hkind hscope
    exact ⟨h.eq_of_keeps Pair.nameText hne (fun _ _ => rfl) fun heq => absurd heq hnes,
      h.eq_of_keeps Pair.value hne (fun _ _ => rfl) fun heq => absurd heq hnes⟩

/-- The new element has the definitions that the scope had. -/
theorem declaredAs?_element (before : String) : t'.declaredAs? before t.size = t.declaredAs? before s :=
  h.declaredAs?_of_children hnamed h.children_element before

theorem declaredAs?_eq (hx : x ≠ t.size) (hxs : x ≠ s) (before : String) :
    t'.declaredAs? before x = t.declaredAs? before x :=
  h.declaredAs?_of_children hnamed (h.children_eq hx hxs) before

omit hnamed in
theorem declaredAs?_scope (before : String) : t'.declaredAs? before s = none := by
  refine declaredAs?_eq_none_of_empty ?_ before
  rw [namespaceDefinitions, h.children_scope, filter_cons_of_neg, filter_nil]
  rw [h.kind_element]
  exact Bool.false_ne_true

theorem shadows_of_ne (hxs : x ≠ s) (hshadows : t'.Shadows x) : t.Shadows x := by
  obtain ⟨⟨hscope, hname⟩, before, hprefix, hdeclared⟩ := hshadows
  have hx : x ≠ t.size := by
    rintro rfl
    rw [h.kind_element] at hscope
    cases hscope
  have hsame : ∀ {α : Type} (g : Pair → α), (∀ pair parent, g { pair with parent } = g pair) →
      g (t'.get x) = g (t.get x) := fun g hg => h.eq_of_keeps g hx hg fun heq => absurd heq hxs
  refine ⟨⟨h.kind_eq hx ▸ hscope, ?_⟩, before, ?_, ?_⟩
  · exact hsame Pair.name (fun _ _ => rfl) ▸ hname
  · exact hsame Pair.nsPrefix (fun _ _ => rfl) ▸ hprefix
  · exact h.declaredAs?_eq hnamed hx hxs before ▸ hdeclared

theorem namespaceOutside?_eq (hmodules : ∀ m ∈ modules, m ≠ t.size ∧ m ≠ s) (before : String) :
    t'.namespaceOutside? modules before = t.namespaceOutside? modules before :=
  namespaceOutside?_congr fun m hm => h.declaredAs?_eq hnamed (hmodules m hm).1 (hmodules m hm).2 before

variable (hwf : t.WellFormed)

include hwf

/-- The pairs around another one are as before, or the new element has come between the scope
    and one of its children. -/
theorem induction_split {P : PairId → Prop} (root : ∀ x, x ≠ t.size → t.parent? x = none → t'.parent? x = none → P x)
    (inside : ∀ x, x ≠ t.size → t.parent? x = some s → t'.parent? x = some t.size → P s → P x)
    (other : ∀ x p, x ≠ t.size → p ≠ t.size → p ≠ s → t.parent? x = some p → t'.parent? x = some p →
      P p → P x) (hx : x ≠ t.size) (hoff : t.OffItems s x) : P x := by
  induction x using hwf.induction_up with
  | root x hroot =>
    refine root x hx hroot ((h.parent?_eq hx fun hmem => ?_).trans hroot)
    rw [hwf.mem_held_iff.mp (mem_held_of_mem_children hmem)] at hroot
    cases hroot
  | child x p hp ih =>
    have hpne : p ≠ t.size := (hwf.parent_lt_size hp).ne
    have hP := ih hpne (hoff.of_parent hwf hp)
    by_cases hmem : x ∈ t.children s
    · obtain rfl : s = p := by
        rw [hwf.mem_held_iff.mp (mem_held_of_mem_children hmem)] at hp
        exact Option.some.inj hp
      exact inside x hx hp (h.parent?_child hmem) hP
    · refine other x p hx hpne ?_ hp ((h.parent?_eq hx hmem).trans hp) hP
      rintro rfl
      have hheld : x ∈ t.children p ++ (t.get p).items.getD [] := hwf.mem_held_iff.mpr hp
      rcases mem_append.mp hheld with hchild | hitem
      · exact hmem hchild
      · exact hoff x mem_cons_self hitem

section

variable (hmodules : ∀ m ∈ modules, m ≠ t.size ∧ m ≠ s) (hx : x ≠ t.size)

include hmodules hx

theorem namespaceAround?_eq (hoff : t.OffItems s x) (before : String) :
    t'.namespaceAround? modules before x = t.namespaceAround? modules before x := by
  have hwf' := h.wellFormed hwf hnamed.lt_size
  refine h.induction_split hnamed hwf (P := fun x => t'.namespaceAround? modules before x =
    t.namespaceAround? modules before x) ?_ ?_ ?_ hx hoff
  · intro x _ hroot hroot'
    rw [namespaceAround?_of_root hroot, namespaceAround?_of_root hroot', h.namespaceOutside?_eq hnamed hmodules]
  · intro x _ hp hp' ih
    rw [hwf.namespaceAround?_of_parent hp, hwf'.namespaceAround?_of_parent hp', namespaceAt?_eq,
      namespaceAt?_eq, hwf'.namespaceAround?_of_parent h.parent?_element, namespaceAt?_eq,
      h.declaredAs?_element hnamed, h.declaredAs?_scope, ih, Option.none_or]
  · intro x p _ hpne hps hp hp' ih
    rw [hwf.namespaceAround?_of_parent hp, hwf'.namespaceAround?_of_parent hp', namespaceAt?_eq,
      namespaceAt?_eq, h.declaredAs?_eq hnamed hpne hps, ih]

theorem namespaceAt?_eq_of_ne (hxs : x ≠ s) (hoff : t.OffItems s x) (before : String) :
    t'.namespaceAt? modules before x = t.namespaceAt? modules before x := by
  rw [namespaceAt?_eq, namespaceAt?_eq, h.declaredAs?_eq hnamed hx hxs,
    h.namespaceAround?_eq hnamed hwf hmodules hx hoff]

/-- What the scope itself opens is another matter if it has a definition of its own
    prefix, since that now belongs to the new element. -/
theorem openedAt?_eq (hshadows : x = s → ¬ t.Shadows s) (hoff : t.OffItems s x) :
    t'.openedAt? modules x = t.openedAt? modules x := by
  have hprefix : (t'.get x).nsPrefix = (t.get x).nsPrefix :=
    h.eq_of_keeps Pair.nsPrefix hx (fun _ _ => rfl) fun _ _ _ _ _ => rfl
  rw [openedAt?, openedAt?, h.kind_eq hx, hprefix]
  refine congrArg (fun uri => if (t.kind x).isScope then uri else none) ?_
  cases hbefore : (t.get x).nsPrefix with
  | none => rfl
  | some before =>
    change t'.namespaceAt? modules before x = t.namespaceAt? modules before x
    by_cases hxs : x = s
    · subst hxs
      have hnone : t.declaredAs? before x = none := by
        cases hdeclared : t.declaredAs? before x with
        | none => rfl
        | some uri => exact absurd ⟨hnamed, before, hbefore, by simp [hdeclared]⟩ (hshadows rfl)
      rw [namespaceAt?_eq, namespaceAt?_eq, h.declaredAs?_scope, hnone,
        h.namespaceAround?_eq hnamed hwf hmodules hx hoff]
    · exact h.namespaceAt?_eq_of_ne hnamed hwf hmodules hx hxs hoff before

theorem defaultAround?_eq (hoff : t.OffItems s x) (hshadows : s ∈ t.ancestors x → ¬ t.Shadows s) :
    t'.defaultAround? modules x = t.defaultAround? modules x := by
  have hwf' := h.wellFormed hwf hnamed.lt_size
  have helement : t'.openedAt? modules t.size = none := openedAt?_of_not_scope (by rw [h.kind_element]; rfl)
  have hself : ∀ {x p}, t.parent? x = some p → p ∈ t.ancestors x := fun hp => hwf.mem_ancestors_of_parent hp
  refine h.induction_split hnamed hwf (P := fun x => t.OffItems s x → (s ∈ t.ancestors x → ¬ t.Shadows s) →
    t'.defaultAround? modules x = t.defaultAround? modules x) ?_ ?_ ?_ hx hoff hoff hshadows
  · intro x _ hroot hroot' _ _
    rw [defaultAround?_of_root hroot, defaultAround?_of_root hroot']
  · intro x _ hp hp' ih hoff hshadows
    have hoffs := hoff.of_parent hwf hp
    have hnot := hshadows (hself hp)
    rw [hwf.defaultAround?_of_parent hp, hwf'.defaultAround?_of_parent hp', helement,
      hwf'.defaultAround?_of_parent h.parent?_element, Option.none_or,
      h.openedAt?_eq hnamed hwf hmodules hnamed.lt_size.ne (fun _ => hnot) hoffs,
      ih hoffs fun _ => hnot]
  · intro x p _ hpne hps hp hp' ih hoff hshadows
    have hoffp := hoff.of_parent hwf hp
    rw [hwf.defaultAround?_of_parent hp, hwf'.defaultAround?_of_parent hp',
      h.openedAt?_eq hnamed hwf hmodules hpne (fun heq => absurd heq hps) hoffp, ih hoffp fun hmem => ?_]
    refine hshadows ?_
    rw [hwf.ancestors_eq_cons hp]
    exact mem_cons_of_mem _ hmem

end

end IsSplit

end PairTree

end PairMarkup
