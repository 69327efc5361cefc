import PairMarkup.Proofs.Resolution.Lockstep
import PairMarkup.Proofs.Resolution.Unfolding

namespace PairMarkup

open List Kind PairTree

namespace PairTree

variable {t t' : PairTree} {modules : List PairId} {s d : PairId} {root : Scope}

theorem IsSplit.frame_eq (h : t.IsSplit t' s) (hwf : t.WellFormed) (hnamed : t.NamedScope s) {x : PairId}
    (hx : x ≠ t.size) (hxs : x ≠ s) : t'.frame x = t.frame x := by
  have hsame : ∀ {α : Type} (g : Pair → α), (∀ pair parent, g { pair with parent } = g pair) →
      ∀ {y}, (t.kind y).isScope = false → y < t.size → g (t'.get y) = g (t.get y) := by
    intro α g hg y hscope hy
    refine h.eq_of_keeps g hy.ne hg ?_
    rintro rfl
    exact absurd hnamed.1 (hscope ▸ Bool.false_ne_true)
  have hdefs : t'.namespaceDefinitions x = t.namespaceDefinitions x := by
    rw [namespaceDefinitions, namespaceDefinitions, h.children_eq hx hxs]
    exact congrArg (List.filter · _) (funext fun c => h.flag_eq (f := isNamespaceDefinition) rfl c)
  rw [frame, frame, h.hoisted_eq hwf hnamed.lt_size hnamed.1, hdefs]
  refine congrArg₂ Frame.mk (map_congr_left fun e he => ?_) (map_congr_left fun e he => ?_)
  · have hdef := (hwf.mem_hoisted_iff.mp he).kind
    rw [hsame Pair.nameText (fun _ _ => rfl) (not_scope_of_definition hdef) (lt_size_of_definition hdef)]
  · have hkind := (mem_filter.mp he).2
    have hscope := not_scope_of_namespaceDefinition hkind
    have hlt := lt_size_of_kind (Bool.eq_false_iff.mp (not_comment_of_namespaceDefinition hkind))
    rw [hsame Pair.nameText (fun _ _ => rfl) hscope hlt, hsame Pair.value (fun _ _ => rfl) hscope hlt]

/-- A split changes nothing in the names around a pair, unless the scope shadows its own prefix there. -/
theorem Owned.scopeAround_sameNames (howned : t.Owned modules)
    (haliases : ∀ name, root.aliasFor? name = modules.findSome? (t.hoistedAs? name))
    (hnames : ∀ before, root.namespaceFor? before = t.namespaceOutside? modules before)
    (hdefault : root.defaultNamespace? = none) (hd : d ≠ t.size) (hoff : t.NamedScope s → t.OffItems s d)
    (hshadows : s ∈ t.ancestors d → ¬ t.Shadows s) :
    (t.scopeAround root d).SameNames ((t.splitScope s).scopeAround root d) := by
  by_cases hnamed : t.NamedScope s
  · have hwf := howned.wellFormed
    have hsplit := isSplit_splitScope hwf hnamed
    have hwf' := hsplit.wellFormed hwf hnamed.lt_size
    have hmodules := howned.module_ne_of_named hnamed
    have hnames' : ∀ before, root.namespaceFor? before = (t.splitScope s).namespaceOutside? modules before :=
      fun before => (hnames before).trans (hsplit.namespaceOutside?_eq hnamed hmodules before).symm
    refine ⟨fun name => ?_, fun before => ?_, ?_⟩
    · rw [Scope.aliasFor?_scopeAround name hwf (haliases name), Scope.aliasFor?_scopeAround name hwf' ?_,
        hsplit.lexical?_eq hwf hnamed.lt_size hnamed.1 name hd]
      rw [haliases, funext (hsplit.hoistedAs?_eq hwf hnamed.lt_size hnamed.1 name)]
    · rw [Scope.namespaceFor?_scopeAround before hwf (hnames before),
        Scope.namespaceFor?_scopeAround before hwf' (hnames' before),
        hsplit.namespaceAround?_eq hnamed hwf hmodules hd (hoff hnamed)]
    · rw [Scope.defaultNamespace?_scopeAround hwf hnames hdefault,
        Scope.defaultNamespace?_scopeAround hwf' hnames' hdefault,
        hsplit.defaultAround?_eq hnamed hwf hmodules hd (hoff hnamed) hshadows]
  · rw [splitScope_of_not hnamed]
    exact .refl _

/-- No definition is inside of the scope, or else the scope does not shadow its own prefix. -/
def Seamless (t : PairTree) (s : PairId) : Prop :=
  ∀ d, (t.kind d).isAliasDefinition = true → s ∈ t.ancestors d → ¬ t.Shadows s

end PairTree

def ModuleSet.splitScope (set : ModuleSet) (s : PairId) : ModuleSet := { set with tree := set.tree.splitScope s }

theorem ModuleSet.globalScope_splitScope {set : ModuleSet} (howned : set.tree.Owned set.modules) (s : PairId) :
    (set.splitScope s).globalScope = set.globalScope := by
  by_cases hnamed : set.tree.NamedScope s
  · have hsplit := isSplit_splitScope howned.wellFormed hnamed
    have hframes : set.modules.map (set.tree.splitScope s).frame = set.modules.map set.tree.frame := by
      refine map_congr_left fun m hm => ?_
      obtain ⟨hsize, hs⟩ := howned.module_ne_of_named hnamed m hm
      exact hsplit.frame_eq howned.wellFormed hnamed hsize hs
    rw [globalScope, globalScope]
    dsimp only [splitScope]
    rw [hframes]
  · rw [splitScope, splitScope_of_not hnamed]

namespace Config

open Progress WalkAction PairTree

variable {set : ModuleSet} {m m' : Config} {s d : PairId}

section

variable (hset : set.Parsed)

include hset

theorem Step.namedScope_of_namedScope (hstep : Step m m') (hm : Leads (start set) m)
    (h : m'.progress.tree.NamedScope s) : m.progress.tree.NamedScope s := by
  cases hstep.advances hset hm with
  | same hshape => exact (namedScope_iff_of_shape hshape).mp h
  | split _ _ _ hshape =>
    exact .of_splitScope (wellFormed_of_leads hset hm) ((namedScope_iff_of_shape hshape).mp h)

section

variable (hm : Leads (start set) m)

include hm

theorem leads_not_namedScope : ∀ x ∈ m.progress.handled, ¬ m.progress.tree.NamedScope x := by
  refine induction_on (P := fun m => ∀ x ∈ m.progress.handled, ¬ m.progress.tree.NamedScope x) ?_
    (fun m m' hm ih hstep x hx hnamed => ?_) hm
  · intro x hx
    rw [(start_noted set).handled_eq] at hx
    cases hx
  · have hbefore := hstep.namedScope_of_namedScope hset hm hnamed
    have hwf := wellFormed_of_leads hset hm
    obtain ⟨action, rest, p⟩ := hstep
    rcases action.perform_handled p with heq | ⟨n, context, id, rfl, hdef, heq⟩
    · exact ih x (heq ▸ hx) hbefore
    · rcases mem_cons.mp (heq ▸ hx) with rfl | hx
      · refine not_namedScope_splitScope hwf x ?_
        rw [← namedScope_iff_of_shape (ofHandling_shape n context x p)]
        simp only [perform, ofVisit, hdef, Bool.false_eq_true, if_false] at hnamed
        exact hnamed
      · exact ih x hx hbefore

theorem not_met_of_namedScope (hnamed : m.progress.tree.NamedScope s) : ¬ m.progress.Met s := by
  rintro (hs | hs)
  · exact leads_not_namedScope hset hm s hs hnamed
  · have hdef := (leads_tracked hset hm).2.covered.entered_definition s hs
    exact Bool.false_ne_true ((not_scope_of_definition hdef).symm.trans hnamed.1)

/-- What is around a pair of the unit as it was read was so from the start. -/
theorem leads_ancestors_iff (hs : s < set.tree.size)
    (hd : d < set.tree.size) : s ∈ m.progress.tree.ancestors d ↔ s ∈ set.tree.ancestors d := by
  rw [← (leads_unfolds hset hm).ancestors_eq d hd, mem_filter]
  simp [hs]

theorem leads_tied {u e : PairId}
    (h : m.progress.tree.kind u = .aliasUsage (some e)) : (m.progress.tree.kind e).isAliasDefinition :=
  (wellFormed_of_leads hset hm).definition_of_lexical? ((hset.bound hm).of_tied h).2

end

theorem leads_clear {n : Nat} {c : Context} {x : PairId} {rest : List WalkAction} {p : Progress}
    (hm : Leads (start set) ⟨.visit n c x :: rest, p⟩) (hs : s < set.tree.size) (hseamless : set.tree.Seamless s)
    (hd : c.scope.aliasFor? (p.tree.get x).nameText = some d) : Clear s p c d := by
  obtain ⟨horderly, htracked⟩ := leads_tracked hset hm
  have howned : p.tree.Owned set.modules := htracked.covered.toOwned
  have hroot : c.root = set.globalScope := (horderly.sound _ mem_cons_self).1
  have hlexical : p.tree.lexical? set.modules (p.tree.get x).nameText x = some d :=
    (htracked.aliases_eq _ mem_cons_self _).symm.trans hd
  have hdef := howned.wellFormed.definition_of_lexical? hlexical
  have hknows : KnowsAround set p c.scope x := (leads_places hset hm).1.actions _ mem_cons_self
  have hway := hknows.way.of_lexical? howned hlexical
  refine ⟨hdef, fun t hshape => ?_⟩
  have hkeeps : KeepsNamespaces set p { p with set := { p.set with tree := t } } :=
    .of_shape howned.wellFormed hshape fun _ => id
  refine (howned.of_shape hshape).scopeAround_sameNames (fun name => ?_) (fun before => ?_) ?_ ?_ (fun hnamed => ?_)
    fun hmem hshadow => ?_
  · rw [hroot, funext (hoistedAs?_eq_of_shape hshape name)]
    exact htracked.root_eq name
  · rw [hroot]
    exact (leads_outside hset hm before).trans (hkeeps.outside before).symm
  · rw [hroot]
    rfl
  · rw [size_eq_of_shape hshape]
    exact (lt_size_of_definition hdef).ne
  · refine (hkeeps.way d hway).offItems (howned.of_shape hshape) ?_
    exact not_met_of_namedScope hset hm ((namedScope_iff_of_shape hshape).mp hnamed)
  · have hdef₀ : (set.tree.kind d).isAliasDefinition :=
      (leads_flag hset isAliasDefinition_shape rfl hm d).symm.trans hdef
    have hunmet := not_met_of_namedScope hset hm ((namedScope_iff_of_shape hshape).mp hshadow.1)
    rw [ancestors_eq_of_shape hshape] at hmem
    exact hseamless d hdef₀ ((leads_ancestors_iff hset hm hs (lt_size_of_definition hdef₀)).mp hmem)
      (leads_shadows hset hm hunmet (hshadow.of_shape hshape))

end

/-- A state of the walk that finds the scope `s` split, and of one that does not. -/
def InStep (t₀ : PairTree) (s : PairId) (m m' : Config) : Prop :=
  ∃ φ, AllMatch t₀ s φ (m.agenda, m.progress) (m'.agenda, m'.progress)

theorem InStep.step {m₁ : Config} (h : m.InStep set.tree s m') (hset : set.Parsed) (hm : Leads (start set) m)
    (hs : s < set.tree.size)
    (hseamless : set.tree.Seamless s)
    (hstep : Step m m₁) : ∃ m₁', Step m' m₁' ∧ m₁.InStep set.tree s m₁' := by
  obtain ⟨φ, hprogress, hactions⟩ := h
  have hdeep := start_unhindered hset m hm
  have hdefs := leads_flag hset isAliasDefinition_shape rfl hm
  have htied := fun x d => leads_tied hset hm (u := x) (e := d)
  obtain ⟨agenda', q⟩ := m'
  obtain ⟨action, rest, p⟩ := hstep
  obtain ⟨action', rest', haction, hrest, rfl⟩ := forall₂_cons_left_iff.mp hactions
  have hfollow : Follow set.tree s φ p (action.perform p) (action'.perform q) := by
    refine perform_follow hprogress haction (fun c x heq => hdeep c x rest (heq ▸ rfl)) hdefs htied ?_
    rintro n c x rfl _ d hd
    exact leads_clear hset hm hs hseamless hd
  obtain ⟨φ', hnext, hold, hsize, huntouched⟩ := hfollow
  refine ⟨_, .perform action' rest' q, φ', AllMatch.append hnext ?_⟩
  exact hrest.imp fun _ _ hmatch => hmatch.mono hold hsize huntouched

theorem start_inStep (hset : set.Parsed) (hnamed : set.tree.NamedScope s) :
    (start set).InStep set.tree s (start (set.splitScope s)) := by
  have howned := hset.tree_parsed.toOwned
  have hinitial : (initial set).Mirrors set.tree s (.refl PairId) (initial (set.splitScope s)) :=
    ⟨howned.wellFormed, .refl _, rfl, rfl, .none⟩
  have hannounce : ∀ p, Quiet p (set.modules.foldl (announce none) p) :=
    lenient_quiet.foldl fun p id _ => announce_quiet none p id
  have hshape := (hannounce (initial set)).shape_eq
  have hsize : (set.tree.splitScope s).size = set.tree.size + 1 :=
    (isSplit_splitScope howned.wellFormed hnamed).size_eq
  have hagenda : (start (set.splitScope s)).agenda = visitAll (2 * set.tree.size + 2 + 2)
      (set.modules.map fun id => (⟨set.globalScope, set.globalScope, [], none⟩, id)) := by
    rw [start, ModuleSet.globalScope_splitScope howned]
    dsimp only [ModuleSet.splitScope]
    rw [hsize, Nat.mul_add]
  refine ⟨.refl PairId, hinitial.quiet (hannounce _) (hannounce _), ?_⟩
  rw [hagenda]
  simp only [start, visitAll, map_map, forall₂_map_left_iff, forall₂_map_right_iff, forall₂_same]
  intro m hm
  refine Matches.visit ?_ ⟨rfl, .refl _, rfl⟩
  rw [size_eq_of_shape hshape]
  exact howned.module_lt_size hm

/-- The walk over the unit with the scope split goes along. -/
theorem leads_inStep (hset : set.Parsed) (hnamed : set.tree.NamedScope s) (hseamless : set.tree.Seamless s)
    (hm : Leads (start set) m) : ∃ m', Leads (start (set.splitScope s)) m' ∧ m.InStep set.tree s m' := by
  refine induction_on (P := fun m => ∃ m', Leads (start (set.splitScope s)) m' ∧ m.InStep set.tree s m')
    ⟨_, .refl, start_inStep hset hnamed⟩ ?_ hm
  rintro m m₁ hm ⟨m', hm', h⟩ hstep
  obtain ⟨m₁', hstep', h₁⟩ := h.step hset hm hnamed.lt_size hseamless hstep
  exact ⟨m₁', hm'.tail hstep', h₁⟩

theorem Step.deterministic {m₁ m₂ : Config} (h₁ : Step m m₁) (h₂ : Step m m₂) : m₁ = m₂ := by
  cases h₁
  cases h₂
  rfl

theorem leads_end_unique {p q : Progress} (hp : Leads m ⟨[], p⟩) (hq : Leads m ⟨[], q⟩) : p = q := by
  have hstop : ∀ {p : Progress} {m'}, Leads ⟨[], p⟩ m' → m' = ⟨[], p⟩ := by
    intro p m' h
    rcases h.cases_head with rfl | ⟨_, hstep, -⟩
    · rfl
    · cases hstep
  have hunique : Relator.RightUnique Step := fun _ _ _ => Step.deterministic
  rcases Relation.ReflTransGen.total_of_right_unique hunique hp hq with h | h
  · exact (Config.mk.inj (hstop h)).2.symm
  · exact (Config.mk.inj (hstop h)).2

end Config

namespace ModuleSet.Parsed

open Progress Config

variable {set : ModuleSet} {s : PairId} (hset : set.Parsed) (hrooted : set.tree.Rooted set.modules s)
  (hnamed : set.tree.NamedScope s) (hseamless : set.tree.Seamless s)

include hset hrooted hnamed hseamless

/-- Split before or during the walk: in the end the tree is the same, but for the numbers of elements. -/
theorem run_splitScope_renumbers : ∃ φ, (run set).tree.Renumbers φ (run (set.splitScope s)).tree ∧
    (run (set.splitScope s)).set.modules = (run set).set.modules := by
  have hrun := start_leads_run set
  obtain ⟨⟨agenda, q⟩, hm', φ, hprogress, hactions⟩ := leads_inStep hset hnamed hseamless hrun
  obtain rfl : agenda = [] := forall₂_nil_left_iff.mp hactions
  obtain rfl := leads_end_unique hm' (start_leads_run (set.splitScope s))
  have hhandled : s ∈ (run set).handled := by
    rw [hset.mem_handled_run_iff]
    refine ⟨(leads_rooted_iff hset hrun hnamed.lt_size).mpr hrooted, ?_⟩
    rw [leads_flag hset isAliasDefinition_shape rfl hrun]
    exact not_definition_of_hasNamespace (hasNamespace_of_scope hnamed.1)
  have hdone := leads_not_namedScope hset hrun s hhandled
  have htree := hprogress.tree
  rw [splitScope_of_not hdone] at htree
  exact ⟨φ, htree, hprogress.modules_eq⟩

end ModuleSet.Parsed

end PairMarkup
