import PairMarkup.Proofs.Resolution.Chains

namespace PairMarkup

open List Relation PairTree

theorem PairTree.Refers.definition {t : PairTree} {d e : PairId} (h : t.Refers d e) :
    (t.kind d).isAliasDefinition := by
  obtain ⟨u, hd, -⟩ := h
  exact find?_some (p := fun a => (t.kind a).isAliasDefinition) hd

namespace Progress

variable {modules : List PairId} {p p' : Progress}

theorem reportName_truthful (branch : Option Branch) {code : Code} (u : PairId)
    (hcode : code ≠ .aliasDefHasCircularReference) (h : p.Truthful) :
    (p.reportName branch code u).Truthful := by
  have hfindings := (report_spec p branch code [(p.tree.get u).nameText] u (p.tree.get u).nameSpan).2
  intro d
  have htold : (p.reportName branch code u).timesTold d = p.timesTold d := by
    rw [timesTold, reportName, hfindings, countP_append, timesTold]
    simp [Diagnostic.of, hcode]
  rw [marked_of_core (reportName_core p branch code u), htold]
  exact h d

theorem Effect.truthful (heffect : Effect modules p p') (h : p.Truthful) : p'.Truthful := by
  cases heffect with
  | idle hkeeps => exact hkeeps.truthful h
  | report _ _ _ _ hkeeps heq => exact heq ▸ reportName_truthful _ _ nofun (hkeeps.truthful h)
  | tie _ _ _ _ hties => exact hties.truthful h

/-- Every definition that is marked as circular is on a cycle of references. -/
def MarksCycles (p : Progress) : Prop := ∀ d, p.tree.Marked d → Relation.TransGen p.tree.Refers d d

/-- Every definition that is marked as circular refers to another one that is marked and leads back
    to it. -/
def MarksCircles (p : Progress) : Prop :=
  ∀ d, p.tree.Marked d → ∃ e, p.tree.Marked e ∧ p.tree.Refers d e ∧ Relation.ReflTransGen p.tree.Refers e d

theorem SameTies.marksCircles (hsame : SameTies modules p p') (h : p.MarksCircles) : p'.MarksCircles := by
  intro d hd
  obtain ⟨e, he, hde, hback⟩ := h d ((hsame.marked_iff d).mp hd)
  exact ⟨e, (hsame.marked_iff e).mpr he, hsame.refers_iff.mpr hde,
    ReflTransGen.mono (fun _ _ => hsame.refers_iff.mpr) _ _ hback⟩

theorem Ties.marksCircles {u e : PairId} {circle : List PairId} (hties : Ties modules p p' u e circle)
    (hu : p.tree.kind u = .aliasUsage none) (h : p.MarksCircles)
    (hcircle : ∀ d ∈ circle, ∃ x ∈ circle, p'.tree.Refers d x ∧ ReflTransGen p'.tree.Refers x d) :
    p'.MarksCircles := by
  have hrefers : ∀ a b, p.tree.Refers a b → p'.tree.Refers a b :=
    fun _ _ hold => (hties.refers_iff hu).mpr (.inl hold)
  intro d hd
  rcases (hties.marked_iff d).mp hd with hd | ⟨hd, -⟩
  · obtain ⟨x, hx, hdx, hback⟩ := h d hd
    exact ⟨x, (hties.marked_iff x).mpr (.inl hx), hrefers d x hdx, ReflTransGen.mono hrefers _ _ hback⟩
  · obtain ⟨x, hx, hdx, hback⟩ := hcircle d hd
    obtain ⟨y, -, hxy, -⟩ := hcircle x hx
    have hdef := (hties.definition_eq x).symm.trans hxy.definition
    exact ⟨x, (hties.marked_iff x).mpr (.inr ⟨hx, hdef⟩), hdx, hback⟩

theorem MarksCircles.marksCycles (h : p.MarksCircles) : p.MarksCycles := by
  intro d hd
  obtain ⟨e, -, hde, hback⟩ := h d hd
  exact .head' hde hback

end Progress

namespace Worklist

open Progress

variable {modules : List PairId} {size₀ : Nat} {root : Scope} {passes : PairId → PairId → Prop}
  {l : List Visit} {opens : List PairId} {p p' : Progress} {v : Visit} {e : PairId} {o o' : Worklist}

theorem exists_dropWhile_ne {chain : List PairId} (he : e ∈ chain) :
    ∃ before after, chain = before ++ e :: after ∧ chain.dropWhile (· ≠ e) = e :: after := by
  obtain ⟨before, after, rfl, hnot⟩ := eq_append_cons_of_mem he
  refine ⟨before, after, rfl, ?_⟩
  rw [dropWhile_append_of_pos, dropWhile_cons_of_neg (by simp)]
  intro d hd
  have hne : d ≠ e := fun h => hnot (h ▸ hd)
  simpa using hne

section

variable (h : Tracked modules size₀ root ⟨v :: l, opens, p⟩) (hbound : p.Bound modules) (hfollows : v.Follows p.tree)
  (husage : (p.tree.kind v.id).isAliasUsage) (he : e ∈ v.chain)
  (hties : Ties modules p p' v.id e (v.chain.dropWhile (· ≠ e)))

include h hbound hfollows husage he hties

/-- A usage that is tied to a definition on its chain closes a circle, from that
    definition to the one around the usage. -/
theorem Tracked.closes :
    (v.chain.dropWhile (· ≠ e)).head? = some e ∧ (v.chain.dropWhile (· ≠ e)).IsChain p'.tree.Refers ∧
      ∃ d, (v.chain.dropWhile (· ≠ e)).getLast? = some d ∧ p.tree.enclosingDefinition? v.id = some d ∧
        p'.tree.Refers d e := by
  have hunbound := h.unbound hbound husage
  have hlast := hfollows.last_eq (Kind.isAliasDefinition_of_usage husage)
  obtain ⟨before, after, hchain, hcircle⟩ := exists_dropWhile_ne he
  rw [hcircle]
  rw [hchain, getLast?_append_cons] at hlast
  have hd := getLast?_eq_some_getLast (cons_ne_nil e after)
  refine ⟨rfl, ?_, _, hd, hlast.symm.trans hd, (hties.refers_iff hunbound).mpr (.inr ⟨hlast.symm.trans hd, rfl⟩)⟩
  have hold := hchain ▸ hfollows.refers
  exact (isChain_append.mp hold).2.1.imp fun _ _ hab => (hties.refers_iff hunbound).mpr (.inl hab)

theorem Tracked.round : ∀ d ∈ v.chain.dropWhile (· ≠ e), ∃ x ∈ v.chain.dropWhile (· ≠ e), p'.tree.Refers d x ∧
      ReflTransGen p'.tree.Refers x d := by
  obtain ⟨hfirst, hrefers, last, hlast, -, hback⟩ := h.closes hbound hfollows husage he hties
  intro d hd
  obtain ⟨x, hx, hdx⟩ := exists_next_of_circle hrefers hfirst hlast hback hd
  have hto := reflTransGen_getLast hrefers hlast hx
  exact ⟨x, hx, hdx, hto.trans (.head hback (reflTransGen_head hrefers hfirst hd))⟩

end

theorem Step.marksCircles (hstep : Step root passes o o')
    (htracked : Tracked modules size₀ root o) (hbound : o.progress.Bound modules)
    (hfollows : ∀ v ∈ o.pending, v.Follows o.progress.tree) (h : o.progress.MarksCircles) :
    o'.progress.MarksCircles := by
  have hsame : ∀ {p'}, SameTies modules o.progress p' → p'.MarksCircles := fun hsame => hsame.marksCircles h
  cases hstep with
  | note _ hnoted => exact hsame hnoted.keepsTies.toSameTies
  | close hnoted => exact hsame hnoted.keepsTies.toSameTies
  | skip => exact h
  | postpone => exact h
  | enter _ _ hnoted => exact hsame (KeepsTies.of_met hnoted).toSameTies
  | handle _ _ hnoted => exact hsame (keepsTies_handle htracked.covered.wellFormed hnoted).toSameTies
  | unbound _ _ hnoted => exact hsame ((KeepsTies.of_met hnoted).toSameTies.trans (.reportName ..))
  | @circular v l p p₁ branch e husage _ he hnoted =>
    have hties : Ties modules p _ v.id e (v.chain.dropWhile (· ≠ e)) := ties_circular husage hnoted branch _
    exact hties.marksCircles (htracked.unbound hbound husage) h
      (htracked.round hbound (hfollows v mem_cons_self) husage he hties)
  | @settled v l p p₁ e husage _ _ _ hnoted =>
    have hties : Ties modules p (p₁.tie v.id e) v.id e [] := ties_settled husage hnoted
    exact hties.marksCircles (htracked.unbound hbound husage) h nofun
  | @follow v l p p₁ p₂ p' e husage _ _ _ hnoted haround hopen =>
    have hties : Ties modules p p' v.id e [] := ties_follow husage hnoted haround hopen
    exact hties.marksCircles (htracked.unbound hbound husage) h fun d hd => absurd hd not_mem_nil

/-- What the walk can be trusted with at every moment. -/
structure Faithful (modules : List PairId) (o : Worklist) : Prop where
  bound : o.progress.Bound modules
  follows : ∀ v ∈ o.pending, v.Follows o.progress.tree
  circles : o.progress.MarksCircles
  truthful : o.progress.Truthful

theorem Faithful.cycles (h : o.Faithful modules) : o.progress.MarksCycles := h.circles.marksCycles

theorem Step.faithful (hstep : Step root passes o o')
    (htracked : Tracked modules size₀ root o) (h : o.Faithful modules) : o'.Faithful modules where
  bound := (hstep.effect htracked).bound h.bound
  follows := hstep.follows htracked h.bound h.follows
  circles := hstep.marksCircles htracked h.bound h.follows h.circles
  truthful := (hstep.effect htracked).truthful h.truthful

end Worklist

namespace ModuleSet.Parsed

open Config

variable {set : ModuleSet} (hset : set.Parsed)

include hset

theorem start_not_refers (d e : PairId) : ¬ (start set).worklist.progress.tree.Refers d e := by
  rintro ⟨u, -, hkind⟩
  have hhandled : u ∉ (start set).worklist.progress.handled := by
    rw [show (start set).worklist.progress.handled = [] from (start_noted set).handled_eq]
    exact not_mem_nil
  have hnone := (hset.start_bound.unhandled u (by rw [hkind]; rfl) hhandled).1
  rw [hkind] at hnone
  cases hnone

theorem start_faithful : (start set).worklist.Faithful set.modules := by
  have hnoted := (start_noted set).forget
  have hunmarked : ∀ d, ¬ (start set).worklist.progress.tree.Marked d := by
    intro d hd
    obtain ⟨info, hkind, hcircular⟩ := (marked_of_core hnoted.core_eq d).mp hd
    have hunresolved := hset.tree_parsed.unresolved d
    rw [show set.tree.kind d = .aliasDefinition info from hkind] at hunresolved
    rw [show info.isCircular = false from hunresolved] at hcircular
    cases hcircular
  refine ⟨hset.start_bound, fun v hv => ?_, fun d hd => absurd hd (hunmarked d), ?_⟩
  · rw [pending_start] at hv
    obtain ⟨m, hm, rfl⟩ := mem_map.mp hv
    refine ⟨.nil, List.Subset.refl _, fun _ => ?_, fun _ => .inl rfl, fun _ => .inl rfl⟩
    have hroot := hset.tree_parsed.module_root hm
    refine Eq.trans ?_ (enclosingDefinition?_eq_of_shape hnoted.shape_eq m).symm
    exact (congrArg (List.find? _) (ancestors_eq_nil hroot)).symm
  · have hkeeps : Progress.KeepsTies set.modules _ _ := hnoted.keepsTies
    refine hkeeps.truthful fun d => ⟨fun hd => ?_, fun _ => rfl⟩
    exact absurd ((hkeeps.marked_iff d).mpr hd) (hunmarked d)

theorem faithful {m : Config} (hm : Leads (start set) m) : m.worklist.Faithful set.modules :=
  worklist_induction hset (P := Worklist.Faithful set.modules) hset.start_faithful
    (fun _ _ htracked h hstep => hstep.faithful htracked h) hm

theorem run_told (d : PairId) :
    set.resolve.2.countP (fun f => f.subject = d ∧ f.diagnostic.code = .aliasDefHasCircularReference) =
      if (Progress.run set).tree.Marked d then 1 else 0 := by
  have htruth : ((Progress.run set).tree.Marked d → (Progress.run set).timesTold d = 1) ∧
      (¬ (Progress.run set).tree.Marked d → (Progress.run set).timesTold d = 0) :=
    (hset.faithful (start_leads_run set)).truthful d
  split
  · exact htruth.1 ‹_›
  · exact htruth.2 ‹_›

end ModuleSet.Parsed

namespace Session

/-- Every definition that is marked as circular is on a cycle of references, and those
    that are marked are reported, each of them once. -/
theorem marked_is_circular {limit : Option Nat} {sources : List Source} {parsed resolved : Session}
    (hparse : (start limit).parseAll sources = .ok parsed) (hresolve : parsed.resolve = .ok resolved) :
    let t := resolved.set.tree
    let findings := parsed.set.resolve.2
    (∀ d, t.Marked d → Relation.TransGen t.Refers d d) ∧
      (∀ d, findings.countP (fun f => f.subject = d ∧ f.diagnostic.code = .aliasDefHasCircularReference) =
        if t.Marked d then 1 else 0) ∧
      resolved.collection.entries = parsed.collection.entries ++ findings.map (·.diagnostic) := by
  have htree := run_tree_eq hresolve
  have hfaithful := (parsed_of_start hparse).faithful (Config.start_leads_run parsed.set)
  refine ⟨?_, fun d => ?_, (resolve_spec hresolve).2⟩
  · exact htree ▸ hfaithful.cycles
  · exact htree ▸ (parsed_of_start hparse).run_told d

/-- The two definitions that refer to each other are marked and reported, and another
    one is not. -/
theorem tangledSources_marked_is_circular : ∃ parsed resolved,
    (start none).parseAll tangledSources = .ok parsed ∧ parsed.resolve = .ok resolved ∧
      let t := resolved.set.tree
      let told d := parsed.set.resolve.2.countP fun f =>
        f.subject = d ∧ f.diagnostic.code = .aliasDefHasCircularReference
      (t.Marked 1 ∧ Relation.TransGen t.Refers 1 1 ∧ told 1 = 1) ∧
        (t.Marked 5 ∧ Relation.TransGen t.Refers 5 5 ∧ told 5 = 1) ∧ ¬ t.Marked 8 ∧ told 8 = 0 := by
  obtain ⟨parsed, resolved, hparse, hresolve, hcheck⟩ := exists_confirmed
    (show confirms none tangledSources (fun _ resolved => resolved.set.tree.Marked 1 ∧
      resolved.set.tree.Marked 5 ∧ ¬ resolved.set.tree.Marked 8) = true by decide +kernel)
  obtain ⟨hx, hy, hz⟩ := hcheck
  obtain ⟨hcycle, htold, -⟩ := marked_is_circular hparse hresolve
  exact ⟨parsed, resolved, hparse, hresolve, ⟨hx, hcycle 1 hx, (htold 1).trans (if_pos hx)⟩,
    ⟨hy, hcycle 5 hy, (htold 5).trans (if_pos hy)⟩, hz, (htold 8).trans (if_neg hz)⟩

end Session

end PairMarkup
