import PairMarkup.Proofs.Resolution.Knowledge
import PairMarkup.Proofs.Session

namespace PairMarkup

open List Progress Kind Pair Config

theorem Pair.namespaceUri_lasts : Pair.Lasts namespaceUri where
  choices f pair := by
    unfold mapChoices
    split <;> rfl
  info f pair := by
    unfold mapInfo
    split <;> rfl
  tied _ _ _ := rfl
  likened _ _ _ := rfl
  emptied _ _ := rfl
  moved _ _ := rfl
  split _ _ _ _ := rfl

namespace Progress

open PairTree

/-- The namespace of the pair is the one that its place gives it. For elements in the default
    namespace this is asked only where that is steady. -/
def InPlace (set : ModuleSet) (p : Progress) (x : PairId) : Prop :=
  ((p.tree.get x).nsPrefix = none → (p.tree.kind x).isElement = true → set.tree.Steady p.tree x) →
    (p.tree.get x).namespaceUri = p.tree.namespaceOf? set.modules x

/-- Namespaces are given to pairs when they are handled, by place. -/
structure Places (set : ModuleSet) (p : Progress) : Prop where
  handled : ∀ x ∈ p.handled, (p.tree.kind x).hasNamespace = true → p.InPlace set x
  unhandled : ∀ x, x ∉ p.handled → (p.tree.get x).namespaceUri = none

variable {set : ModuleSet} {p p' : Progress} {x : PairId}

/-- A scope that was handled opens the namespace that it was given. -/
theorem Places.opened (h : p.Places set) (hx : x ∈ p.handled) :
    (if (p.tree.kind x).isScope then (p.tree.get x).namespaceUri else none) = p.tree.openedAt? set.modules x := by
  by_cases hscope : (p.tree.kind x).isScope = true
  · have helement : ¬ (p.tree.kind x).isElement := fun helement => by
      rw [not_scope_of_element helement] at hscope
      cases hscope
    rw [if_pos hscope, openedAt?, if_pos hscope,
      h.handled x hx (hasNamespace_of_scope hscope) fun _ h => absurd h helement]
    cases hbefore : (p.tree.get x).nsPrefix with
    | none => exact namespaceOf?_of_other hbefore helement
    | some before => exact namespaceOf?_of_prefixed hbefore
  · rw [if_neg hscope, openedAt?, if_neg hscope]

theorem InPlace.of_keeps (h : p.InPlace set x) (hkeeps : KeepsNamespaces set p p')
    (hway : p.tree.Way set.modules p.Met x) (hmet : p.Met x)
    (hlasting : (p'.tree.get x).lasting = (p.tree.get x).lasting)
    (huri : (p'.tree.get x).namespaceUri = (p.tree.get x).namespaceUri) : p'.InPlace set x := by
  have hsame : (p'.tree.get x).nsPrefix = (p.tree.get x).nsPrefix := nsPrefix_eq_of_lasting hlasting
  have helement : (p'.tree.kind x).isElement = (p.tree.kind x).isElement :=
    flag_eq_of_lasting hlasting isElement_shape
  intro hsteady
  rw [hsame, helement] at hsteady
  rw [huri, h fun hnone hkind => hkeeps.steady x hway (hsteady hnone hkind)]
  cases hbefore : (p.tree.get x).nsPrefix with
  | some before =>
    rw [namespaceOf?_of_prefixed hbefore, namespaceOf?_of_prefixed (hsame.trans hbefore), hkeeps.inside x hway hmet]
  | none =>
    have hbefore' := hsame.trans hbefore
    by_cases hkind : (p.tree.kind x).isElement = true
    · rw [namespaceOf?_of_element hbefore hkind, namespaceOf?_of_element hbefore' (helement.trans hkind),
        hkeeps.default x hway (hsteady hbefore hkind)]
    · rw [namespaceOf?_of_other hbefore hkind, namespaceOf?_of_other hbefore' (helement ▸ hkind)]

/-- A scope that knows the namespaces at a pair gives the right one to it. -/
theorem noteKind_inPlace (branch : Option Branch) {inner : Scope}
    (hkind : (p.tree.kind x).hasNamespace) (hnone : (p.tree.get x).namespaceUri = none)
    (hknows : KnowsInside set (p.noteKind branch inner x) inner x) :
    (p.noteKind branch inner x).InPlace set x := by
  have hlt : x < p.tree.size := lt_size_of_kind (by simp [not_comment_of_hasNamespace hkind])
  have hshape := (noteKind_noted p branch inner x).shape_eq
  have hsame : ((p.noteKind branch inner x).tree.get x).nsPrefix = (p.tree.get x).nsPrefix := by
    rw [← nsPrefix_shape, hshape, nsPrefix_shape]
  have helement : ((p.noteKind branch inner x).tree.kind x).isElement = (p.tree.kind x).isElement :=
    flag_eq_of_shape hshape isElement_shape x
  have hnote : p.noteKind branch inner x = p.bindNamespace branch inner x := noteKind_of_hasNamespace hkind
  have hgiven : ∀ uri, ((p.modify x fun pair => { pair with namespaceUri := uri }).tree.get x).namespaceUri =
      uri := by
    intro uri
    change ((p.tree.modify x _).get x).namespaceUri = uri
    rw [get_modify_self hlt]
  intro hsteady
  cases hbefore : (p.tree.get x).nsPrefix with
  | some before =>
    rw [namespaceOf?_of_prefixed (hsame.trans hbefore), ← hknows.names, hnote]
    simp only [bindNamespace, hbefore]
    split
    · rename_i uri huri
      rw [hgiven, huri]
    · rename_i huri
      rw [huri, ← hnone]
      exact (report_keeps namespaceUri_lasts p branch _ _ x _).same x hlt
  | none =>
    have huri : ((p.noteKind branch inner x).tree.get x).namespaceUri =
        if (p.tree.kind x).isElement then inner.defaultNamespace? else none := by
      rw [hnote]
      simp only [bindNamespace, hbefore]
      exact hgiven _
    rw [huri]
    by_cases hkind : (p.tree.kind x).isElement = true
    · rw [if_pos hkind, namespaceOf?_of_element (hsame.trans hbefore) (helement.trans hkind)]
      exact hknows.default (hsteady (hsame.trans hbefore) (helement.trans hkind))
    · rw [if_neg hkind, namespaceOf?_of_other (hsame.trans hbefore) (helement ▸ hkind)]

theorem Keeps.uri_none (h : Keeps namespaceUri p p') (hsize : p'.tree.size = p.tree.size)
    (hnone : (p.tree.get x).namespaceUri = none) : (p'.tree.get x).namespaceUri = none := by
  by_cases hx : x < p.tree.size
  · exact (h.same x hx).trans hnone
  · rw [get_eq_default (hsize ▸ Nat.le_of_not_lt hx)]
    rfl

theorem beginPair_uri_none (hwf : p.tree.WellFormed) (branch : Option Branch) (id : PairId)
    (hx : p.tree.size ≤ x) : ((p.beginPair branch id).tree.get x).namespaceUri = none := by
  have hnoted := beginPair_noted p branch id
  refine (announce_keeps namespaceUri_lasts _ branch id).uri_none (size_eq_of_shape hnoted.shape_eq) ?_
  change ((p.tree.splitScope id).get x).namespaceUri = none
  by_cases hnamed : p.tree.NamedScope id
  · have hsplit := isSplit_splitScope hwf hnamed
    by_cases hnew : x = p.tree.size
    · rw [hnew, hsplit.element]
      rfl
    · rw [get_eq_default (hsplit.size_eq ▸ Nat.lt_of_le_of_ne hx (Ne.symm hnew))]
      rfl
  · rw [splitScope_of_not hnamed, get_eq_default hx]
    rfl

end Progress

namespace Config

open WalkAction PairTree

variable {set : ModuleSet} {m m' : Config}

section

variable (hset : set.Parsed) {x : PairId}

include hset

/-- A scope that was not come to shadows its prefix only if it did so from the start. -/
theorem leads_shadows (hm : Leads (start set) m) {s : PairId}
    (hunmet : ¬ m.progress.Met s) (h : m.progress.tree.Shadows s) : set.tree.Shadows s := by
  refine induction_on (P := fun m => ¬ m.progress.Met s → m.progress.tree.Shadows s → set.tree.Shadows s)
    (fun _ h => h.of_shape (start_noted set).shape_eq) (fun m m' hm ih hstep hunmet h => ?_) hm hunmet h
  cases hstep.advances hset hm with
  | same hshape hmet => exact ih (mt (hmet s) hunmet) (h.of_shape hshape)
  | @split a hnamed _ hnew hshape hmet =>
    have hsplit := isSplit_splitScope (wellFormed_of_leads hset hm) hnamed
    refine ih (mt (hmet s) hunmet) (hsplit.shadows_of_ne hnamed ?_ (h.of_shape hshape))
    rintro rfl
    exact hunmet hnew

theorem Step.keepsNamespaces (hstep : Step m m') (hm : Leads (start set) m) :
    KeepsNamespaces set m.progress m'.progress :=
  (hstep.advances hset hm).keepsNamespaces (leads_tracked hset hm).2.covered.toOwned fun _ => leads_shadows hset hm

theorem leads_outside (hm : Leads (start set) m) (before : String) :
    set.globalScope.namespaceFor? before = m.progress.tree.namespaceOutside? set.modules before := by
  rw [Scope.namespaceFor?_globalScope]
  refine induction_on (P := fun m => set.tree.namespaceOutside? set.modules before =
    m.progress.tree.namespaceOutside? set.modules before) ?_ (fun m m' hm ih hstep => ?_) hm
  · rw [← namespaceOutside?_shape, ← namespaceOutside?_shape (start set).progress.tree, (start_noted set).shape_eq]
    rfl
  · rw [ih, (hstep.keepsNamespaces hset hm).outside]

theorem Step.informed (hstep : Step m m') (hm : Leads (start set) m)
    (h : m.Informed set) (hplaces : m.progress.Places set) : m'.Informed set := by
  have hkeeps := hstep.keepsNamespaces hset hm
  have hwf := wellFormed_of_leads hset hm
  have hroot := leads_outside hset hm
  obtain ⟨horderly, htracked⟩ := leads_tracked hset hm
  obtain ⟨action, rest, p⟩ := hstep
  have hsound := horderly.sound action mem_cons_self
  have haction := h.actions action mem_cons_self
  refine Informed.append ?_ fun action haction =>
    (h.actions action (mem_cons_of_mem _ haction)).of_keeps hkeeps
  have hdeferred := fun d hd => (h.deferred d hd).of_keeps hkeeps
  have hways := fun x hx => hkeeps.way x (h.ways x hx)
  have halike : ∀ {p' : Progress}, KeepsNamespaces set p p' → Alike p p' → Informed set ⟨[], p'⟩ := by
    intro p' hkeeps halike
    exact .nil (fun d hd => (h.deferred d (halike.deferred_eq ▸ hd)).of_keeps hkeeps)
      fun x hx => hkeeps.way x (h.ways x (halike.met_iff.mp hx))
  cases action with
  | visit n context id =>
    cases n with
    | zero => exact halike hkeeps (.refl p)
    | succ n =>
      refine ofVisit_informed htracked.covered.toOwned (hsound.1 ▸ hroot) (hsound.1 ▸ rfl) ?_ hkeeps h
      exact htracked.aliases_eq _ mem_cons_self
  | held n context id =>
    refine { halike hkeeps (.refl p) with actions := informed_visits (fun c hc => ?_) n }
    refine KnowsInside.held haction hwf (fun before => Scope.namespaceFor?_openScope _ before id _) ?_ hc
    rw [Scope.defaultNamespace?_openScope, hplaces.opened hsound.2.2]
  | settle id => exact halike hkeeps (settleValueKind_noted p id).alike
  | check branch usage definition =>
    exact halike hkeeps (checkArguments_noted p branch usage definition).alike
  | nested n context =>
    refine ⟨fun action haction => ?_, fun _ h => absurd h not_mem_nil, hways⟩
    obtain ⟨v, hv, rfl⟩ := mem_map.mp haction
    obtain ⟨d, hd, rfl⟩ := mem_map.mp hv
    exact hdeferred d hd
  | leave id outer =>
    have hsettle := (settleValueKind_noted p id).alike
    exact .nil (fun d hd => (haction d hd).of_keeps hkeeps) fun x hx => hways x (hsettle.met_iff.mp hx)

/-- To visit a pair is to give it the namespace that its place has. -/
theorem visit_inPlace {n : Nat} {context : Context} {rest : List WalkAction}
    {p : Progress} (hm : Leads (start set) ⟨.visit (n + 1) context x :: rest, p⟩)
    (h : Informed set ⟨.visit (n + 1) context x :: rest, p⟩)
    (hkind : (p.tree.kind x).hasNamespace) (hnone : (p.tree.get x).namespaceUri = none) :
    (ofVisit n context x p).2.InPlace set x := by
  have hwf := wellFormed_of_leads hset hm
  have hkeeps : KeepsNamespaces set p (ofVisit n context x p).2 :=
    (Step.perform (.visit (n + 1) context x) rest p).keepsNamespaces hset hm
  have hknows : KnowsAround set p context.scope x := h.actions _ mem_cons_self
  have hdef := not_definition_of_hasNamespace hkind
  have hmet : (ofVisit n context x p).2.Met x := .inl (ofVisit_handled n context hdef ▸ mem_cons_self)
  rw [ofVisit_plain n context hwf hdef (not_usage_of_hasNamespace hkind)] at hkeeps hmet ⊢
  have hlt : x < p.tree.size := lt_size_of_kind (by simp [not_comment_of_hasNamespace hkind])
  have hlasting := (beginPair_keeps lasting_stays.toLasts hwf context.branch x).same x hlt
  refine noteKind_inPlace context.branch ?_ ?_ ?_
  · exact (flag_eq_of_lasting hlasting hasNamespace_shape).trans hkind
  · exact ((beginPair_keeps namespaceUri_lasts hwf context.branch x).same x hlt).trans hnone
  · exact (hknows.of_keeps hkeeps).enter hmet (noteKind_noted ..).shape_eq

theorem Step.added_uri_none (hstep : Step m m') (hm : Leads (start set) m)
    (hx : m.progress.tree.size ≤ x) : (m'.progress.tree.get x).namespaceUri = none := by
  have hwf := wellFormed_of_leads hset hm
  have hcovered := (leads_tracked hset (hm.tail hstep)).2.covered
  have hflag : ∀ s, (m'.progress.tree.kind s).isScope = (m.progress.tree.kind s).isScope := fun s =>
    (leads_flag hset isScope_shape rfl (hm.tail hstep) s).trans (leads_flag hset isScope_shape rfl hm s).symm
  cases hstep.advances hset hm with
  | same hshape =>
    rw [get_eq_default (size_eq_of_shape hshape ▸ hx)]
    rfl
  | @split s hnamed hunmet hnew hshape =>
    obtain ⟨action, rest, p⟩ := hstep
    -- Only a visit to the scope itself can have split it.
    have hhandled : s ∈ (action.perform p).2.handled := by
      refine hnew.resolve_right fun hentered => ?_
      have hplain := not_scope_of_definition (hcovered.entered_definition s hentered)
      exact Bool.false_ne_true (hplain.symm.trans ((hflag s).trans hnamed.1))
    rcases action.perform_handled p with heq | ⟨n, context, id, rfl, hdef, heq⟩
    · exact absurd (.inl (heq ▸ hhandled)) hunmet
    · rw [heq] at hhandled
      obtain rfl := (mem_cons.mp hhandled).resolve_right fun hmem => hunmet (.inl hmem)
      change ((ofVisit n context s p).2.tree.get x).namespaceUri = none
      have husage := not_usage_of_hasNamespace (hasNamespace_of_scope hnamed.1)
      have hne : x ≠ s := (hnamed.lt_size.trans_le hx).ne'
      rw [ofVisit_plain n context hwf hdef husage]
      refine Eq.trans ?_ (beginPair_uri_none hwf context.branch s hx)
      generalize p.beginPair context.branch s = p₁
      by_cases hlt : x < p₁.tree.size
      · exact noteKind_same namespaceUri_lasts p₁ _ _ hlt hne
      · have hsize := size_eq_of_shape (noteKind_noted p₁ context.branch (p₁.tree.enter s context.scope) s).shape_eq
        rw [get_eq_default (Nat.le_of_not_lt hlt), get_eq_default (hsize ▸ Nat.le_of_not_lt hlt)]

theorem Step.places (hstep : Step m m') (hm : Leads (start set) m)
    (h : m.Informed set) (hplaces : m.progress.Places set) : m'.progress.Places set := by
  have hwf := wellFormed_of_leads hset hm
  have hkeeps := hstep.keepsNamespaces hset hm
  have hcovered := (leads_tracked hset hm).2.covered
  have hadded : ∀ x, m.progress.tree.size ≤ x → (m'.progress.tree.get x).namespaceUri = none := fun x =>
    hstep.added_uri_none hset hm
  obtain ⟨action, rest, p⟩ := hstep
  have hlasting := action.perform_keeps lasting_stays hwf
  refine ⟨fun x hx hkind => ?_, fun x hx => ?_⟩
  · by_cases hvisit : ∃ n context, action = .visit (n + 1) context x
    · obtain ⟨n, context, rfl⟩ := hvisit
      have hlt : x < p.tree.size := hcovered.ids_lt x mem_cons_self
      have hkind : (p.tree.kind x).hasNamespace :=
        (flag_eq_of_lasting (hlasting.same x hlt) hasNamespace_shape).symm.trans hkind
      have hnew := Covered.not_met_of_plain hcovered (not_definition_of_hasNamespace hkind)
      exact visit_inPlace hset hm h hkind (hplaces.unhandled x hnew.1)
    · have hx : x ∈ p.handled := (action.mem_handled_perform_iff p hvisit).mp hx
      have hlt : x < p.tree.size := hcovered.handled_lt x hx
      refine (hplaces.handled x hx ?_).of_keeps hkeeps (h.ways x (.inl hx)) (.inl hx) (hlasting.same x hlt) ?_
      · exact (flag_eq_of_lasting (hlasting.same x hlt) hasNamespace_shape).symm.trans hkind
      · exact action.perform_same namespaceUri_lasts hwf hlt fun n context heq =>
          absurd ⟨n, context, heq⟩ hvisit
  · by_cases hlt : x < p.tree.size
    · have hother : ∀ n context, action = .visit (n + 1) context x →
          (p.tree.kind x).isAliasDefinition = true ∨ (p.tree.kind x).isAliasUsage = true := by
        rintro n context rfl
        refine .inl (by_contra fun hdef => hx ?_)
        exact ofVisit_handled n context (by simpa using hdef) ▸ mem_cons_self
      refine (action.perform_same namespaceUri_lasts hwf hlt hother).trans (hplaces.unhandled x ?_)
      intro hmem
      rcases action.perform_handled p with heq | ⟨n, context, id, rfl, -, heq⟩
      · exact hx (heq ▸ hmem)
      · exact hx (heq ▸ mem_cons_of_mem _ hmem)
    · exact hadded x (Nat.le_of_not_lt hlt)

theorem start_informed : (start set).Informed set := by
  have hnoted := start_noted set
  have howned := (leads_tracked hset .refl).2.covered.toOwned
  refine ⟨fun action haction => ?_, fun d hd => ?_, fun x hx => ?_⟩
  · obtain ⟨v, hv, rfl⟩ := mem_map.mp haction
    obtain ⟨m, hm, rfl⟩ := mem_map.mp hv
    have hparent := howned.module_root hm
    refine ⟨.module hm, fun before => ?_, fun _ => (defaultAround?_of_root hparent).symm⟩
    exact (leads_outside hset .refl before).trans (namespaceAround?_of_root hparent before).symm
  · rw [hnoted.deferred_eq] at hd
    cases hd
  · rw [hnoted.alike.met_iff] at hx
    rcases hx with hx | hx <;> exact absurd hx not_mem_nil

theorem start_places : (start set).progress.Places set := by
  have hnoted := start_noted set
  refine ⟨fun x hx => ?_, fun x _ => ?_⟩
  · rw [hnoted.handled_eq] at hx
    cases hx
  · refine (start_keeps namespaceUri_lasts set).uri_none ?_ (hset.verbatim.pair x).namespaceUri_eq
    exact size_eq_of_shape hnoted.shape_eq

theorem leads_places (hm : Leads (start set) m) : m.Informed set ∧ m.progress.Places set :=
  induction_on (P := fun m => m.Informed set ∧ m.progress.Places set) ⟨start_informed hset, start_places hset⟩
    (fun _ _ hm h hstep => ⟨hstep.informed hset hm h.1 h.2, hstep.places hset hm h.1 h.2⟩) hm

end

end Config

/-- At the end of the walk, the pairs below modules are in the namespaces that their places give. -/
theorem ModuleSet.Parsed.run_inPlace {set : ModuleSet} (hset : set.Parsed) {m x : PairId}
    (hm : m ∈ set.modules) (hx : (Progress.run set).tree.HangsFrom m x)
    (hkind : ((Progress.run set).tree.kind x).hasNamespace) : (Progress.run set).InPlace set x := by
  refine (leads_places hset (start_leads_run set)).2.handled x ?_ hkind
  exact hset.run_handled hm hx (not_definition_of_hasNamespace hkind)

namespace Session

/-- After resolving, elements, attributes and scopes below modules are in the namespaces that their
    places in the tree give them. For an element without a prefix this takes that no definition
    at or around it is inside of a scope that, as it was read, has both a local name and a
    definition of its own prefix. -/
theorem namespaces_are_given_by_place {limit : Option Nat} {sources : List Source}
    {parsed resolved : Session} (hparse : (start limit).parseAll sources = .ok parsed)
    (hresolve : parsed.resolve = .ok resolved) {m x : PairId} (hm : m ∈ resolved.set.modules)
    (hx : resolved.set.tree.HangsFrom m x) (hkind : (resolved.set.tree.kind x).hasNamespace = true)
    (hsteady : (resolved.set.tree.get x).nsPrefix = none → (resolved.set.tree.kind x).isElement = true →
      parsed.set.tree.Steady resolved.set.tree x) :
    (resolved.set.tree.get x).namespaceUri = resolved.set.tree.namespaceOf? resolved.set.modules x := by
  rw [← modules_eq hparse hresolve] at hm ⊢
  rw [← run_tree_eq hresolve] at hx hkind hsteady ⊢
  exact (parsed_of_start hparse).run_inPlace hm hx hkind hsteady

/-- A definition in a scope with a local name, and a usage in front of the scope. -/
def inwardSource : Source where
  name := "a.pxml"
  format := .xml
  text := ("!#p = outer\n!d:\n    r:\n        $x\n        #p.foo:\n            !#q = inner\n" ++
    "            !$x:\n                bar = 1\n").toList

theorem inwardSource_namespaces : ∃ parsed resolved,
    (start none).parseAll [inwardSource] = .ok parsed ∧ parsed.resolve = .ok resolved ∧
      0 ∈ resolved.set.modules ∧ resolved.set.tree.HangsFrom 0 8 ∧
      parsed.set.tree.Steady resolved.set.tree 8 ∧
      (resolved.set.tree.get 8).namespaceUri = some "outer" := by
  obtain ⟨parsed, resolved, hparse, hresolve, hcheck⟩ := exists_confirmed
    (show confirms none [inwardSource] (fun parsed resolved =>
      let t := resolved.set.tree
      0 ∈ resolved.set.modules ∧ 0 ∈ t.ancestors 8 ∧ (t.kind 8).hasNamespace = true ∧
        parsed.set.tree.Steady t 8 ∧ t.namespaceOf? resolved.set.modules 8 = some "outer") = true by
      decide +kernel)
  obtain ⟨hm, hroot, hkind, hsteady, huri⟩ := hcheck
  have hhangs := (resolved_wellFormed hparse hresolve).hangsFrom_iff.mpr (.inr hroot)
  exact ⟨parsed, resolved, hparse, hresolve, hm, hhangs, hsteady,
    (namespaces_are_given_by_place hparse hresolve hm hhangs hkind fun _ _ => hsteady).trans huri⟩

/-- The same with a definition of the prefix of the scope directly in it. -/
def shadowingSource : Source where
  name := "a.pxml"
  format := .xml
  text := ("!#p = outer\n!d:\n    r:\n        $x\n        #p.foo:\n            !#p = inner\n" ++
    "            !$x:\n                bar = 1\n").toList

/-- The usage leads into the scope before it is split. What is in the definition gets the
    namespace that the prefix stands for inside of the scope, though the scope itself
    is in the other one. -/
theorem shadowingSource_default_of_unsplit : ∃ parsed resolved,
    (start none).parseAll [shadowingSource] = .ok parsed ∧ parsed.resolve = .ok resolved ∧
      resolved.collection.entries = [] ∧ 0 ∈ resolved.set.modules ∧ resolved.set.tree.HangsFrom 0 8 ∧
      (resolved.set.tree.kind 8).isElement = true ∧ (resolved.set.tree.get 8).nsPrefix = none ∧
      (resolved.set.tree.get 8).namespaceUri = some "inner" ∧
      resolved.set.tree.namespaceOf? resolved.set.modules 8 = some "outer" := by
  obtain ⟨parsed, resolved, hparse, hresolve, hcheck⟩ := exists_confirmed
    (show confirms none [shadowingSource] (fun _ resolved =>
      let t := resolved.set.tree
      resolved.collection.entries = [] ∧ 0 ∈ resolved.set.modules ∧ 0 ∈ t.ancestors 8 ∧
        (t.kind 8).isElement = true ∧ (t.get 8).nsPrefix = none ∧ (t.get 8).namespaceUri = some "inner" ∧
        t.namespaceOf? resolved.set.modules 8 = some "outer") = true by decide +kernel)
  obtain ⟨hentries, hm, hroot, hfacts⟩ := hcheck
  exact ⟨parsed, resolved, hparse, hresolve, hentries, hm,
    (resolved_wellFormed hparse hresolve).hangsFrom_iff.mpr (.inr hroot), hfacts⟩

end Session

end PairMarkup
