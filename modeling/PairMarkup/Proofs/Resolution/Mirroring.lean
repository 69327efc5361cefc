import PairMarkup.Proofs.Resolution.Keeping
import PairMarkup.Proofs.Tree.Namespace
import PairMarkup.Proofs.Tree.Renumbering

namespace PairMarkup

open List Kind

/-- Both scopes give the same answers. -/
structure Scope.SameNames (scope scope' : Scope) : Prop where
  aliases : ∀ name, scope'.aliasFor? name = scope.aliasFor? name
  namespaces : ∀ before, scope'.namespaceFor? before = scope.namespaceFor? before
  default : scope'.defaultNamespace? = scope.defaultNamespace?

theorem Scope.SameNames.refl (scope : Scope) : scope.SameNames scope := ⟨fun _ => rfl, fun _ => rfl, rfl⟩

theorem Scope.SameNames.enter {t t' : PairTree} {x x' : PairId} {scope scope' : Scope}
    (h : scope.SameNames scope') (hhoisted : ∀ name, t'.hoistedAs? name x' = t.hoistedAs? name x)
    (hdeclared : ∀ before, t'.declaredAs? before x' = t.declaredAs? before x) :
    (t.enter x scope).SameNames (t'.enter x' scope') where
  aliases name := by rw [aliasFor?_enter, aliasFor?_enter, hhoisted, h.aliases]
  namespaces before := by rw [namespaceFor?_enter, namespaceFor?_enter, hdeclared, h.namespaces]
  default := by rw [defaultNamespace?_enter, defaultNamespace?_enter, h.default]

namespace PairTree

/-- The pair is there, and it is not a scope that is yet to be split. -/
def Untouched (t : PairTree) (s x : PairId) : Prop := x < t.size ∧ (x = s → ¬ t.NamedScope s)

variable {t t' : PairTree} {s x : PairId}

theorem Untouched.of_kind (hx : x < t.size) (hscope : (t.kind x).isScope = false) : t.Untouched s x := by
  refine ⟨hx, ?_⟩
  rintro rfl hnamed
  exact Bool.false_ne_true (hscope.symm.trans hnamed.1)

theorem wellFormed_splitScope (hwf : t.WellFormed) (s : PairId) : (t.splitScope s).WellFormed := by
  by_cases hnamed : t.NamedScope s
  · exact (isSplit_splitScope hwf hnamed).wellFormed hwf hnamed.lt_size
  · rwa [splitScope_of_not hnamed]

theorem kind_splitScope (hwf : t.WellFormed) (s : PairId) (hx : x < t.size) : (t.splitScope s).kind x = t.kind x := by
  by_cases hnamed : t.NamedScope s
  · exact (isSplit_splitScope hwf hnamed).kind_eq hx.ne
  · rw [splitScope_of_not hnamed]

theorem flag_splitScope {α : Type} {f : Kind → α} (hflag : f .element = f .comment) (hwf : t.WellFormed)
    (s x : PairId) : f ((t.splitScope s).kind x) = f (t.kind x) := by
  by_cases hnamed : t.NamedScope s
  · exact (isSplit_splitScope hwf hnamed).flag_eq hflag x
  · rw [splitScope_of_not hnamed]

theorem size_le_splitScope (hwf : t.WellFormed) (s : PairId) : t.size ≤ (t.splitScope s).size := by
  by_cases hnamed : t.NamedScope s
  · rw [(isSplit_splitScope hwf hnamed).size_eq]
    exact Nat.le_succ _
  · exact (congrArg size (splitScope_of_not hnamed).symm).le

theorem enclosingDefinition?_splitScope (hwf : t.WellFormed) (s : PairId) (hx : x < t.size) :
    (t.splitScope s).enclosingDefinition? x = t.enclosingDefinition? x := by
  by_cases hnamed : t.NamedScope s
  · exact (isSplit_splitScope hwf hnamed).enclosingDefinition?_eq hwf hnamed.lt_size hx.ne
  · rw [splitScope_of_not hnamed]

theorem namedScope_iff_of_shape (hshape : t'.shape = t.shape) : t'.NamedScope x ↔ t.NamedScope x := by
  have hname : (t'.get x).shape.name = (t.get x).shape.name := by rw [← get_shape, hshape, get_shape]
  rw [NamedScope, NamedScope, isScope_eq_of_shape hshape, show (t'.get x).name = (t.get x).name from hname]

theorem not_namedScope_splitScope (hwf : t.WellFormed) (x : PairId) : ¬ (t.splitScope x).NamedScope x := by
  by_cases hnamed : t.NamedScope x
  · exact (isSplit_splitScope hwf hnamed).not_namedScope
  · rwa [splitScope_of_not hnamed]

theorem NamedScope.of_splitScope (hwf : t.WellFormed) (h : (t.splitScope x).NamedScope s) : t.NamedScope s := by
  by_cases hnamed : t.NamedScope x
  · have hsplit := isSplit_splitScope hwf hnamed
    refine (hsplit.namedScope_iff ?_).mp h
    rintro rfl
    exact hsplit.not_namedScope h
  · rwa [splitScope_of_not hnamed] at h

namespace Untouched

theorem of_splitScope (hwf : t.WellFormed) (hx : x < t.size) : (t.splitScope x).Untouched s x := by
  refine ⟨hx.trans_le (size_le_splitScope hwf x), ?_⟩
  rintro rfl
  exact not_namedScope_splitScope hwf x

variable (h : t.Untouched s x)

include h

theorem of_shape (hshape : t'.shape = t.shape) : t'.Untouched s x :=
  ⟨size_eq_of_shape hshape ▸ h.1, fun heq => mt (namedScope_iff_of_shape hshape).mp (h.2 heq)⟩

theorem splitScope (hwf : t.WellFormed) (a : PairId) : (t.splitScope a).Untouched s x :=
  ⟨h.1.trans_le (size_le_splitScope hwf a), fun heq => mt (.of_splitScope hwf) (h.2 heq)⟩

/-- A split of the scope changes nothing in the pair, its parent aside. -/
theorem eq_of_keeps {α : Type} (g : Pair → α) (hwf : t.WellFormed)
    (hg : ∀ pair parent, g { pair with parent } = g pair) : g ((t.splitScope s).get x) = g (t.get x) := by
  by_cases hnamed : t.NamedScope s
  · exact (isSplit_splitScope hwf hnamed).eq_of_keeps g h.1.ne hg fun heq => absurd hnamed (h.2 heq)
  · rw [splitScope_of_not hnamed]

theorem declaredAs?_eq (hwf : t.WellFormed) (before : String) :
    (t.splitScope s).declaredAs? before x = t.declaredAs? before x := by
  by_cases hnamed : t.NamedScope s
  · exact (isSplit_splitScope hwf hnamed).declaredAs?_eq hnamed h.1.ne (fun heq => h.2 heq hnamed) before
  · rw [splitScope_of_not hnamed]

end Untouched

theorem modify_eq_self {f : Pair → Pair} (hf : f (t.get x) = t.get x) : t.modify x f = t := by
  refine ext_get (size_modify ..) fun y => ?_
  rw [get_modify]
  split
  · rename_i hy
    rw [hy.1, hf]
  · rfl

end PairTree

namespace Progress

open PairTree

variable {f : Pair → Pair} {x : PairId}

theorem modify_eq_self {p : Progress} (hf : f (p.tree.get x) = p.tree.get x) : p.modify x f = p := by
  rw [modify, PairTree.modify_eq_self hf]
  rfl

theorem annotate_valueKind_self (p : Progress) (x : PairId) :
    p.modify x (Pair.annotate id (fun _ => (p.tree.get x).valueKind) id) = p := modify_eq_self rfl

/-- A usage that was tied is likened to its definition, if it says nothing itself. -/
theorem settleValueKind_of_tied {p : Progress} {definition : PairId}
    (hkind : p.tree.kind x = .aliasUsage (some definition)) :
    p.settleValueKind x = p.modify x (Pair.annotate id (fun _ => if (p.tree.get x).delimiter = .none &&
          ((p.tree.get x).valueKind = .none || (p.tree.get x).valueKind = .object) &&
          !hasOwnContent p.tree x then (p.tree.get definition).valueKind else (p.tree.get x).valueKind) id) := by
  rw [kind] at hkind
  simp only [settleValueKind, hkind]
  split
  · rfl
  · exact (annotate_valueKind_self p x).symm

/-- Any other pair is empty if it is a block without content. -/
theorem settleValueKind_of_other {p : Progress}
    (hkind : ∀ definition, p.tree.kind x ≠ .aliasUsage (some definition)) :
    p.settleValueKind x = p.modify x (Pair.annotate id (fun _ =>
      if (p.tree.get x).valueKind = .object && (p.tree.get x).items.isNone &&
          (p.tree.contentChildren x).isEmpty && !(p.tree.kind x).isModule then .empty
      else (p.tree.get x).valueKind) id) := by
  simp only [settleValueKind]
  split
  · rename_i definition hkind'
    exact absurd hkind' (hkind definition)
  · rw [kind]
    split
    · rfl
    · exact (annotate_valueKind_self p x).symm

/-- Nothing was done but to report and to take notes for that. -/
structure Quiet (p p' : Progress) : Prop where
  size_eq : p'.tree.size = p.tree.size
  plain_eq : ∀ x, (p'.tree.get x).plain = (p.tree.get x).plain
  modules_eq : p'.set.modules = p.set.modules
  entered_eq : p'.entered = p.entered
  deferred_eq : p'.deferred = p.deferred

variable {p p' p'' : Progress}

namespace Quiet

theorem refl (p : Progress) : Quiet p p := ⟨rfl, fun _ => rfl, rfl, rfl, rfl⟩

theorem trans (h : Quiet p p') (h' : Quiet p' p'') : Quiet p p'' where
  size_eq := h'.size_eq.trans h.size_eq
  plain_eq x := (h'.plain_eq x).trans (h.plain_eq x)
  modules_eq := h'.modules_eq.trans h.modules_eq
  entered_eq := h'.entered_eq.trans h.entered_eq
  deferred_eq := h'.deferred_eq.trans h.deferred_eq

theorem renumbers (h : Quiet p p') : p.tree.Renumbers (Equiv.refl PairId) p'.tree := .of_plain h.size_eq h.plain_eq

theorem shape_eq (h : Quiet p p') : p'.tree.shape = p.tree.shape := by
  refine ext_get (by rw [size_shape, size_shape, h.size_eq]) fun x => ?_
  rw [get_shape, get_shape, ← Pair.shape_plain, h.plain_eq, Pair.shape_plain]

end Quiet

section

variable (p)

theorem modify_quiet (id : PairId) (hf : ∀ pair, (f pair).plain = pair.plain) : Quiet p (p.modify id f) := by
  refine ⟨size_modify .., fun x => ?_, rfl, rfl, rfl⟩
  change ((p.tree.modify id f).get x).plain = _
  rw [get_modify]
  split
  · exact hf _
  · rfl

theorem report_quiet (branch : Option Branch) (code : Code) (arguments : List String)
    (subject : PairId) (span : Span) : Quiet p (p.report branch code arguments subject span) := by
  cases branch with
  | none => exact ⟨rfl, fun _ => rfl, rfl, rfl, rfl⟩
  | some branch =>
    exact (modify_quiet p branch.document (Pair.mapChoices_plain _)).trans ⟨rfl, fun _ => rfl, rfl, rfl, rfl⟩

theorem reportName_quiet (branch : Option Branch) (code : Code) (subject : PairId) :
    Quiet p (p.reportName branch code subject) := report_quiet p branch code _ _ _

end

theorem lenient_quiet : Lenient (fun _ => True) (fun f => ∀ pair, (f pair).plain = pair.plain) Quiet where
  refl := .refl
  trans := .trans
  report p branch _ _ _ _ _ := report_quiet p branch _ _ _ _
  modify p id _ hf := modify_quiet p id hf

theorem announce_quiet (branch : Option Branch) (p : Progress) (id : PairId) : Quiet p (p.announce branch id) :=
  lenient_quiet.announce p branch id (fun _ _ => ⟨rfl, fun _ => rfl, rfl, rfl, rfl⟩) trivial trivial

section

variable (p : Progress) (branch : Option Branch)

theorem announceAround_quiet (id : PairId) : Quiet p (p.announceAround branch id) :=
  lenient_quiet.announceAround p branch id (fun _ _ => ⟨rfl, fun _ => rfl, rfl, rfl, rfl⟩) trivial trivial

theorem recordSignature_quiet (id : PairId) : Quiet p (p.recordSignature branch id) :=
  lenient_quiet.recordSignature p branch id trivial fun _ hf => Pair.mapInfo_plain hf

theorem checkArguments_quiet (usage definition : PairId) : Quiet p (p.checkArguments branch usage definition) :=
  lenient_quiet.checkArguments p branch (fun _ _ => trivial) usage definition

/-- Pairs that have no namespace and are no parameters are looked at, nothing more. -/
theorem noteKind_quiet (inner : Scope) {id : PairId}
    (hnamespace : (p.tree.kind id).hasNamespace = false) (hparameter : (p.tree.kind id).isParameter = false) :
    Quiet p (p.noteKind branch inner id) :=
  lenient_quiet.noteKind p branch id trivial (fun _ => reportName_quiet ..) (fun h => absurd h (by simp [hnamespace]))
    fun h => absurd h (by simp [hparameter])

end

end Progress

/-- A parameter tied to the definition, and any other kind as it is. -/
def Kind.boundTo (definition : PairId) : Kind → Kind
  | .parameter _ place => .parameter (some definition) place
  | kind => kind

/-- A definition marked as circular, and any other kind as it is. -/
def Kind.marked : Kind → Kind
  | .aliasDefinition info => .aliasDefinition { info with isCircular := true }
  | kind => kind

theorem Pair.mapInfo_eq_annotate : Pair.mapInfo ({ · with isCircular := true }) = Pair.annotate marked id id := by
  funext pair
  obtain ⟨kind⟩ := pair
  cases kind <;> rfl

theorem Progress.bindParameter_of_enclosed {p : Progress} {branch : Option Branch} {x d : PairId}
    (hd : p.tree.enclosingDefinition? x = some d) :
    p.bindParameter branch x = p.modify x (Pair.annotate (boundTo d) id id) := by
  simp only [bindParameter, hd]
  refine congrArg (p.modify x) (funext fun pair => ?_)
  obtain ⟨kind⟩ := pair
  cases kind <;> rfl

/-- The same definition of the tree is left for later, with a scope that gives the same answers. -/
structure Deferred.Matches (t₀ : PairTree) (d d' : Deferred) : Prop where
  definition : (t₀.kind d.definition).isAliasDefinition = true
  definition_eq : d'.definition = d.definition
  scope : d.scope.SameNames d'.scope

/-- The walk at `q` is where the one at `p` is, except that it finds the scope `s` split. The definitions
    are those of `t₀`, where the walk began. -/
structure Progress.Mirrors (t₀ : PairTree) (s : PairId) (φ : Equiv.Perm PairId) (p q : Progress) : Prop where
  wellFormed : p.tree.WellFormed
  tree : (p.tree.splitScope s).Renumbers φ q.tree
  modules_eq : q.set.modules = p.set.modules
  entered_eq : q.entered = p.entered
  deferred : Option.Rel (List.Forall₂ (Deferred.Matches t₀)) p.deferred q.deferred

namespace Progress.Mirrors

open Progress PairTree

variable {t₀ : PairTree} {s : PairId} {φ : Equiv.Perm PairId} {p p' q q' : Progress} {x : PairId}
  (h : Mirrors t₀ s φ p q) {scope scope' inner inner' : Scope} (branch branch' : Option Branch) (d : PairId)
  {α : Type}

include h

theorem quiet (hp : Quiet p p') (hq : Quiet q q') : Mirrors t₀ s φ p' q' where
  wellFormed := h.wellFormed.of_shape hp.shape_eq
  tree := ((hp.renumbers.splitScope h.wellFormed s).symm.trans h.tree).trans hq.renumbers
  modules_eq := by rw [hq.modules_eq, hp.modules_eq, h.modules_eq]
  entered_eq := by rw [hq.entered_eq, hp.entered_eq, h.entered_eq]
  deferred := by
    rw [hq.deferred_eq, hp.deferred_eq]
    exact h.deferred

theorem deferred_cases : (p.deferred = none ∧ q.deferred = none) ∨ ∃ later later', p.deferred = some later ∧
    q.deferred = some later' ∧ List.Forall₂ (Deferred.Matches t₀) later later' := by
  have hdeferred := h.deferred
  generalize p.deferred = later, q.deferred = later' at hdeferred ⊢
  cases hdeferred with
  | none => exact .inl ⟨rfl, rfl⟩
  | some hmatch => exact .inr ⟨_, _, rfl, rfl, hmatch⟩

theorem wellFormed_split : (p.tree.splitScope s).WellFormed := wellFormed_splitScope h.wellFormed s

theorem kind_eq (hx : x < p.tree.size) : (q.tree.kind (φ x)).plain = (p.tree.kind x).plain := by
  rw [h.tree.kind_eq, kind_splitScope h.wellFormed s hx]

theorem flag_eq {f : Kind → α} (hshape : ∀ kind, f kind.shape = f kind) (hx : x < p.tree.size) :
    f (q.tree.kind (φ x)) = f (p.tree.kind x) := by
  rw [h.tree.flag_eq hshape, kind_splitScope h.wellFormed s hx]

theorem fixed {f : Kind → Bool} (hf : f .element = false) (hx : x < p.tree.size)
    (hkind : f (p.tree.kind x)) : φ x = x :=
  h.tree.fixed hf (by rwa [kind_splitScope h.wellFormed s hx])

/-- What depends neither on notes nor on the pairs around a pair is the same at its counterpart. -/
theorem get_eq (g : Pair → α) (hplain : ∀ pair, g pair.plain = g pair)
    (hlinks : ∀ pair children items parent, g { pair with children, items, parent } = g pair)
    (hx : p.tree.Untouched s x) : g (q.tree.get (φ x)) = g (p.tree.get x) := by
  rw [h.tree.eq_of_keeps g hplain fun pair => hlinks pair _ _ _,
    hx.eq_of_keeps g h.wellFormed fun pair parent => hlinks pair pair.children pair.items parent]

section

variable (hx : p.tree.Untouched s x)

include hx

theorem children_eq : q.tree.children (φ x) = (p.tree.children x).map φ := by
  rw [h.tree.children_eq, children, hx.eq_of_keeps Pair.children h.wellFormed fun _ _ => rfl, children]

theorem items_eq : (q.tree.get (φ x)).items = (p.tree.get x).items.map (List.map φ) := by
  rw [h.tree.items_eq, hx.eq_of_keeps Pair.items h.wellFormed fun _ _ => rfl]

theorem contentChildren_eq : q.tree.contentChildren (φ x) = (p.tree.contentChildren x).map φ := by
  rw [contentChildren, h.children_eq hx, filter_map, contentChildren]
  refine congrArg (List.map φ) (filter_congr fun c hc => ?_)
  have hlt := h.wellFormed.held_lt_size (mem_held_of_mem_children hc)
  exact congrArg (!·) (h.flag_eq isComment_shape hlt)

theorem hasOwnContent_eq : hasOwnContent q.tree (φ x) = hasOwnContent p.tree x := by
  rw [hasOwnContent, h.contentChildren_eq hx, any_map, hasOwnContent, Bool.eq_iff_iff, any_eq_true, any_eq_true]
  refine exists_congr fun c => and_congr_right fun hc => ?_
  have hlt := h.wellFormed.held_lt_size (mem_held_of_mem_children (mem_filter.mp hc).1)
  rw [Function.comp_apply, h.flag_eq isArgument_shape hlt]

end

theorem enclosingDefinition?_eq (hx : x < p.tree.size) :
    q.tree.enclosingDefinition? (φ x) = p.tree.enclosingDefinition? x := by
  rw [h.tree.enclosingDefinition?_eq, enclosingDefinition?_splitScope h.wellFormed s hx]

theorem enter_sameNames (hx : p.tree.Untouched s x) (hnames : scope.SameNames scope') :
    (p.tree.enter x scope).SameNames (q.tree.enter (φ x) scope') := by
  rw [h.tree.enter_eq h.wellFormed_split]
  exact hnames.enter (fun name => Worklist.Tracked.hoistedAs?_splitScope h.wellFormed s name x)
    (hx.declaredAs?_eq h.wellFormed)

theorem openScope_sameNames (hx : p.tree.Untouched s x) (hnames : inner.SameNames inner') :
    (p.tree.openScope x inner).SameNames (q.tree.openScope (φ x) inner') := by
  have huri := hx.eq_of_keeps Pair.namespaceUri h.wellFormed fun _ _ => rfl
  have hkind : ((p.tree.splitScope s).get x).kind = (p.tree.get x).kind := kind_splitScope h.wellFormed s hx.1
  rw [h.tree.openScope_eq, openScope, openScope, huri, hkind]
  split
  · exact ⟨hnames.aliases, hnames.namespaces, rfl⟩
  · exact hnames

theorem modify (hx : p.tree.Untouched s x) {k : Kind → Kind} (valueKind : ValueKind → ValueKind)
    (uri : Option String → Option String) (hkind : ∀ a b, a.plain = b.plain → (k a).plain = (k b).plain)
    (hscope : (k (p.tree.kind x)).isScope = (p.tree.kind x).isScope)
    (helement : (k (p.tree.kind x)).isElement = (p.tree.kind x).isElement) :
    Mirrors t₀ s φ (p.modify x (Pair.annotate k valueKind uri)) (q.modify (φ x) (Pair.annotate k valueKind uri)) where
  wellFormed := h.wellFormed.modify x (fun _ => rfl) fun _ => rfl
  tree := by
    change ((p.tree.modify x _).splitScope s).Renumbers φ (q.tree.modify (φ x) _)
    rw [splitScope_modify h.wellFormed hx.1 hx.2 valueKind uri hscope]
    refine h.tree.modify x valueKind uri hkind ?_
    rwa [kind_splitScope h.wellFormed s hx.1]
  modules_eq := h.modules_eq
  entered_eq := h.entered_eq
  deferred := h.deferred

theorem splitScope (x : PairId) : ∃ φ' : Equiv.Perm PairId,
    Mirrors t₀ s φ' (p.splitScope x) (q.splitScope (φ x)) ∧ ∀ y, y < p.tree.size → φ' y = φ y := by
  obtain ⟨σ, hσ, hold⟩ := exists_renumbers_splitScope h.wellFormed x s
  refine ⟨σ.trans φ, ⟨wellFormed_splitScope h.wellFormed x, ?_, h.modules_eq, h.entered_eq, h.deferred⟩,
    fun y hy => ?_⟩
  · exact hσ.trans (h.tree.splitScope h.wellFormed_split x)
  · rw [Equiv.trans_apply, hold y hy]

theorem beginPair (x : PairId) : ∃ φ' : Equiv.Perm PairId,
    Mirrors t₀ s φ' (p.beginPair branch x) (q.beginPair branch' (φ x)) ∧ ∀ y, y < p.tree.size → φ' y = φ y := by
  have hhandled : Mirrors t₀ s φ { p with handled := x :: p.handled } { q with handled := φ x :: q.handled } :=
    ⟨h.wellFormed, h.tree, h.modules_eq, h.entered_eq, h.deferred⟩
  obtain ⟨φ', hsplit, hold⟩ := hhandled.splitScope x
  exact ⟨φ', hsplit.quiet (announce_quiet branch _ x) (announce_quiet branch' _ (φ x)), hold⟩

theorem settleValueKind (hx : p.tree.Untouched s x) (htied : ∀ d, p.tree.kind x = .aliasUsage (some d) →
      (p.tree.kind d).isAliasDefinition) :
    Mirrors t₀ s φ (p.settleValueKind x) (q.settleValueKind (φ x)) := by
  have hvalueKind := h.get_eq Pair.valueKind (fun _ => rfl) (fun _ _ _ _ => rfl) hx
  have hplain := h.kind_eq hx.1
  by_cases hkind : ∃ d, p.tree.kind x = .aliasUsage (some d)
  · obtain ⟨d, hkind⟩ := hkind
    have hdef := htied d hkind
    have hlt := lt_size_of_definition hdef
    have hdelimiter := h.get_eq Pair.delimiter (fun _ => rfl) (fun _ _ _ _ => rfl) hx
    have hlikened := h.get_eq Pair.valueKind (fun _ => rfl) (fun _ _ _ _ => rfl)
      (.of_kind hlt (not_scope_of_definition hdef))
    rw [h.fixed rfl hlt hdef] at hlikened
    have hkind' : q.tree.kind (φ x) = .aliasUsage (some d) := by
      rw [hkind] at hplain
      exact plain_eq_aliasUsage.mp hplain
    rw [settleValueKind_of_tied hkind, settleValueKind_of_tied hkind', hdelimiter, hvalueKind, hlikened,
      h.hasOwnContent_eq hx]
    exact h.modify hx _ _ (fun _ _ heq => heq) rfl rfl
  · have hkind' : ∀ d, q.tree.kind (φ x) ≠ .aliasUsage (some d) := by
      intro d hd
      rw [hd] at hplain
      exact hkind ⟨d, plain_eq_aliasUsage.mp hplain.symm⟩
    have hempty : (q.tree.contentChildren (φ x)).isEmpty = (p.tree.contentChildren x).isEmpty := by
      rw [h.contentChildren_eq hx, isEmpty_map]
    have hitems : (q.tree.get (φ x)).items.isNone = (p.tree.get x).items.isNone := by
      rw [h.items_eq hx, Option.isNone_map]
    rw [settleValueKind_of_other fun d hd => hkind ⟨d, hd⟩, settleValueKind_of_other hkind', hvalueKind, hempty,
      hitems, h.flag_eq isModule_shape hx.1]
    exact h.modify hx _ _ (fun _ _ heq => heq) rfl rfl

theorem bindNamespace (hx : p.tree.Untouched s x) (hnames : scope.SameNames scope') :
    Mirrors t₀ s φ (p.bindNamespace branch scope x) (q.bindNamespace branch' scope' (φ x)) := by
  have hprefix := h.get_eq Pair.nsPrefix (fun _ => rfl) (fun _ _ _ _ => rfl) hx
  have hgiven : ∀ uri, Mirrors t₀ s φ (p.modify x fun pair => { pair with namespaceUri := uri })
      (q.modify (φ x) fun pair => { pair with namespaceUri := uri }) := fun uri =>
    h.modify hx id (fun _ => uri) (fun _ _ heq => heq) rfl rfl
  simp only [Progress.bindNamespace, hprefix]
  cases (p.tree.get x).nsPrefix with
  | some before =>
    simp only [hnames.namespaces]
    cases scope.namespaceFor? before with
    | some uri => exact hgiven (some uri)
    | none => exact h.quiet (report_quiet ..) (report_quiet ..)
  | none =>
    have helement : (q.tree.get (φ x)).kind.isElement = (p.tree.get x).kind.isElement :=
      h.flag_eq isElement_shape hx.1
    simp only [helement, hnames.default]
    exact hgiven _

theorem bindParameter (hx : p.tree.Untouched s x) :
    Mirrors t₀ s φ (p.bindParameter branch x) (q.bindParameter branch' (φ x)) := by
  have hsame := h.enclosingDefinition?_eq hx.1
  cases hd : p.tree.enclosingDefinition? x with
  | none =>
    rw [Progress.bindParameter, Progress.bindParameter, hsame, hd]
    exact h.quiet (reportName_quiet ..) (reportName_quiet ..)
  | some d =>
    rw [bindParameter_of_enclosed hd, bindParameter_of_enclosed (hsame.trans hd)]
    refine h.modify hx id id (fun a b heq => ?_) ?_ ?_
    · cases a <;> cases b <;> simp_all [plain, boundTo]
    · cases p.tree.kind x <;> rfl
    · cases p.tree.kind x <;> rfl

theorem tie (hx : x < p.tree.size) (husage : (p.tree.kind x).isAliasUsage) (d : PairId) :
    Mirrors t₀ s φ (p.tie x d) (q.tie (φ x) d) := by
  have hscope := not_scope_of_usage husage
  refine h.modify (.of_kind hx hscope) id id (k := fun _ => .aliasUsage (some d)) (fun _ _ _ => rfl) ?_ ?_
  · exact hscope.symm
  · cases hkind : p.tree.kind x <;> simp_all [isAliasUsage, isElement]

theorem marked_iff (hx : x < p.tree.size) : q.tree.Marked (φ x) ↔ p.tree.Marked x := by
  obtain heq | ⟨_, _, _, heq, heq'⟩ | ⟨info, info', heq, heq', hmark⟩ := eq_or_of_plain (h.kind_eq hx)
  · rw [Marked, Marked, heq]
  · simp [Marked, heq, heq']
  · simp [Marked, heq, heq', hmark]

theorem markCircular : Mirrors t₀ s φ (p.markCircular branch d) (q.markCircular branch' d) := by
  by_cases hdef : (p.tree.kind d).isAliasDefinition = true
  · have hlt := lt_size_of_definition hdef
    have hfixed : φ d = d := h.fixed rfl hlt hdef
    have hmarked := h.marked_iff hlt
    have hflag := h.flag_eq isAliasDefinition_shape hlt
    rw [hfixed] at hmarked hflag
    by_cases hmark : p.tree.Marked d
    · rw [markCircular_eq_self (.inl hmark), markCircular_eq_self (.inl (hmarked.mpr hmark))]
      exact h
    · rw [markCircular_new hdef hmark, markCircular_new (hflag.trans hdef) (mt hmarked.mp hmark),
        Pair.mapInfo_eq_annotate]
      have hscope := not_scope_of_definition hdef
      have hnew := h.modify (.of_kind hlt hscope) id id (k := marked) ?_ ?_ ?_
      · rw [hfixed] at hnew
        exact hnew.quiet (reportName_quiet ..) (reportName_quiet ..)
      · intro a b heq
        cases a <;> cases b <;> simp_all [plain, marked]
      · cases p.tree.kind d <;> rfl
      · cases p.tree.kind d <;> rfl
  · have hdef' : ¬ (q.tree.kind d).isAliasDefinition := by
      rw [h.tree.flag_eq_self (f := isAliasDefinition) rfl isAliasDefinition_shape,
        flag_splitScope (f := isAliasDefinition) rfl h.wellFormed]
      exact hdef
    rw [Bool.not_eq_true] at hdef hdef'
    rw [markCircular_eq_self (.inr hdef), markCircular_eq_self (.inr hdef')]
    exact h

theorem closeCircle {context context' : Context} (hchain : context'.chain = context.chain) (d : PairId) :
    Mirrors t₀ s φ (p.closeCircle context d) (q.closeCircle context' d) := by
  rw [Progress.closeCircle, Progress.closeCircle, hchain]
  generalize context.chain.dropWhile (· ≠ d) = ids
  induction ids generalizing p q with
  | nil => exact h
  | cons id ids ih => exact ih (h.markCircular _ _ id)

theorem openDefinition : Mirrors t₀ s φ (p.openDefinition branch d) (q.openDefinition branch' d) := by
  have hentered : Mirrors t₀ s φ { p with entered := d :: p.entered, deferred := some [] }
      { q with entered := d :: q.entered, deferred := some [] } :=
    ⟨h.wellFormed, h.tree, h.modules_eq, congrArg (d :: ·) h.entered_eq, .some .nil⟩
  exact hentered.quiet ((recordSignature_quiet ..).trans (announce_quiet ..))
    ((recordSignature_quiet ..).trans (announce_quiet ..))

theorem noteKind (hx : p.tree.Untouched s x) (hnames : inner.SameNames inner') :
    Mirrors t₀ s φ (p.noteKind branch inner x) (q.noteKind branch' inner' (φ x)) := by
  have hnamespace := h.flag_eq hasNamespace_shape hx.1
  have hparameter := h.flag_eq isParameter_shape hx.1
  by_cases hkind : (p.tree.kind x).hasNamespace = true
  · rw [noteKind_of_hasNamespace hkind, noteKind_of_hasNamespace (hnamespace.trans hkind)]
    exact h.bindNamespace branch branch' hx hnames
  · by_cases hkind' : (p.tree.kind x).isParameter = true
    · rw [noteKind_of_parameter hkind', noteKind_of_parameter (hparameter.trans hkind')]
      exact h.bindParameter branch branch' hx
    · rw [Bool.not_eq_true] at hkind hkind'
      exact h.quiet (noteKind_quiet p branch inner hkind hkind')
        (noteKind_quiet q branch' inner' (hnamespace.trans hkind) (hparameter.trans hkind'))

end Progress.Mirrors

end PairMarkup
