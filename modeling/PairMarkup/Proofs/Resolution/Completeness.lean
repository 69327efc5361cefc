import Mathlib.Data.List.Find
import PairMarkup.Proofs.Resolution.Ledger
import PairMarkup.Proofs.Tree.Signature

namespace PairMarkup

open List Kind Config Progress PairTree

namespace PairTree

variable {t₀ t : PairTree} {scopes : List PairId} {u d x s : PairId}

namespace SplitsInto

variable (h : t₀.SplitsInto scopes t)

include h

theorem not_mem_of_plain (hplain : (t₀.kind x).isScope = false) : x ∉ scopes := by
  intro hmem
  exact Bool.false_ne_true (hplain.symm.trans (h.named x hmem).1)

theorem get_eq_of_not_mem {α : Type} (g : Pair → α)
    (hg : ∀ pair : Pair, g pair = g { pair.written with parent := none })
    (hx : x < t₀.size) (hmem : x ∉ scopes) : g (t.get x) = g (t₀.get x) := by
  rw [hg, hg (t₀.get x), h.written_of_not_mem hx hmem]
  rfl

theorem held_scope (hs : s ∈ scopes) : (t.get s).held = t₀.elementOf scopes s :: (t₀.get s).items.getD [] := by
  have hitems : (t.get s).items = (t₀.get s).items := (congrArg Pair.items (h.kept s (h.named s hs).lt_size)).trans rfl
  have hchildren : (t.get s).children = [t₀.elementOf scopes s] := h.children_scope hs
  rw [Pair.held, hchildren, hitems]
  rfl

theorem held_element (hs : s ∈ scopes) : (t.get (t₀.elementOf scopes s)).held = t₀.children s := by
  have hitems : (t.get (t₀.elementOf scopes s)).items = none := (congrArg Pair.items (h.element s hs)).trans rfl
  have hchildren : (t.get (t₀.elementOf scopes s)).children = t₀.children s := h.children_element hs
  rw [Pair.held, hchildren, hitems]
  exact append_nil _

theorem elementOf_lt (hs : s ∈ scopes) : t₀.elementOf scopes s < t.size := by
  rw [h.size_eq]
  exact Nat.add_lt_add_left (idxOf_lt_length_of_mem hs) _

section

variable (hwf₀ : t₀.WellFormed)

include hwf₀

theorem parametersFrom_eq (hwf : t.WellFormed) (hx : x < t₀.size) : t.parametersFrom x = t₀.parametersFrom x := by
  refine hwf₀.induction_down (P := fun x => t.parametersFrom x = t₀.parametersFrom x) (fun x hx ih => ?_) hx
  have hlt : x < t.size := hx.trans_le (h.size_eq ▸ Nat.le_add_right _ _)
  rw [hwf.acyclic.parametersFrom_eq hlt, hwf₀.acyclic.parametersFrom_eq hx, h.flag_eq isAliasDefinition_shape hx,
    h.flag_eq isParameter_shape hx]
  suffices hheld : (t.get x).held.flatMap t.parametersFrom = (t₀.get x).held.flatMap t₀.parametersFrom by rw [hheld]
  rw [← flatMap_congr ih]
  by_cases hmem : x ∈ scopes
  · rw [h.held_scope hmem, flatMap_cons, hwf.acyclic.parametersFrom_eq (h.elementOf_lt hmem), h.kind_element hmem,
      h.held_element hmem, Pair.held, flatMap_append]
    rfl
  · rw [h.get_eq_of_not_mem Pair.held (fun _ => rfl) hx hmem]

theorem contentChildren_eq (hx : x < t₀.size) (hmem : x ∉ scopes) : t.contentChildren x = t₀.contentChildren x := by
  have hchildren : t.children x = t₀.children x := h.get_eq_of_not_mem Pair.children (fun _ => rfl) hx hmem
  rw [contentChildren, hchildren, contentChildren]
  refine filter_congr fun c hc => ?_
  rw [h.flag_eq isComment_shape (hwf₀.child_lt_ne hc).1]

theorem arguments_eq (hu : (t₀.kind u).isAliasUsage) : t.arguments u = t₀.arguments u := by
  have hmem := h.not_mem_of_plain (not_scope_of_usage hu)
  rw [arguments, h.contentChildren_eq hwf₀ (lt_size_of_usage hu) hmem, arguments]
  refine filter_congr fun c hc => h.flag_eq (fun kind => ?_) (hwf₀.child_lt_ne (mem_of_mem_filter hc)).1
  cases kind <;> rfl

theorem lacksDefault_eq (hx : (t₀.kind x).isParameter) : t.lacksDefault x = t₀.lacksDefault x := by
  have hlt := lt_size_of_parameter hx
  have hmem := h.not_mem_of_plain (not_scope_of_parameter hx)
  rw [lacksDefault, h.contentChildren_eq hwf₀ hlt hmem, h.get_eq_of_not_mem Pair.delimiter (fun _ => rfl) hlt hmem,
    h.get_eq_of_not_mem Pair.value (fun _ => rfl) hlt hmem, lacksDefault]

theorem declaration?_eq (hwf : t.WellFormed) (hd : (t₀.kind d).isAliasDefinition)
    (name : String) : t.declaration? d name = t₀.declaration? d name := by
  have hlt := lt_size_of_definition hd
  have hmem := h.not_mem_of_plain (not_scope_of_definition hd)
  have hown : t.ownParameters d = t₀.ownParameters d := by
    rw [ownParameters_eq, h.get_eq_of_not_mem Pair.held (fun _ => rfl) hlt hmem, ownParameters_eq]
    exact flatMap_congr fun c hc => h.parametersFrom_eq hwf₀ hwf (hwf₀.held_lt_size hc)
  rw [declaration?, hown, declaration?]
  refine find?_congr fun x hx => ?_
  have hkind : (t₀.kind x).isParameter := (mem_filter.mp hx).2
  rw [h.get_eq_of_not_mem Pair.name (fun _ => rfl) (lt_size_of_parameter hkind)
    (h.not_mem_of_plain (not_scope_of_parameter hkind))]

/-- Whether a usage is complete does not depend on which scopes are split. -/
theorem complete_iff (hwf : t.WellFormed) (hu : (t₀.kind u).isAliasUsage)
    (hd : (t₀.kind d).isAliasDefinition) : t.Complete u d ↔ t₀.Complete u d := by
  unfold Complete
  refine forall_congr' fun name => forall_congr' fun p => ?_
  rw [h.declaration?_eq hwf₀ hwf hd, h.arguments_eq hwf₀ hu]
  refine imp_congr_right fun hp => ?_
  have hkind : (t₀.kind p).isParameter := (mem_filter.mp (mem_of_find?_eq_some hp)).2
  rw [h.lacksDefault_eq hwf₀ hkind]
  refine imp_congr_right fun _ => exists_congr fun a => and_congr_right fun ha => ?_
  obtain ⟨hcontent, hargument⟩ := mem_filter.mp ha
  have hplain : (t₀.kind a).isScope = false := by
    cases hk : t₀.kind a <;> simp [hk, isArgument, isScope] at hargument ⊢
  rw [h.get_eq_of_not_mem Pair.name (fun _ => rfl) (hwf₀.child_lt_ne (mem_of_mem_filter hcontent)).1
    (h.not_mem_of_plain hplain)]

end

end SplitsInto

end PairTree

namespace Progress

variable {reports : Option Branch → Code → PairId → Prop} {handles : PairId → Prop} {p p' : Progress}

theorem Edits.findings_eq_nil (h : Edits reports handles p p') (hnone : p'.findings = []) : p.findings = [] := by
  induction h with
  | refl => exact hnone
  | @tail p₁ p₂ _ hedit ih =>
    apply ih
    cases hedit with
    | book _ hfindings => exact hfindings.symm.trans hnone
    | report =>
      rw [(report_spec ..).2] at hnone
      exact (append_eq_nil_iff.mp hnone).1
    | change => exact hnone
    | split => exact hnone

theorem usageComplaints_eq_nil {branch : Option Branch} {u d : PairId}
    (hnone : (p.checkArguments branch u d).findings = []) : p.tree.usageComplaints u d = [] := by
  rw [checkArguments] at hnone
  cases hcomplaints : p.tree.usageComplaints u d with
  | nil => rfl
  | cons c cs =>
    rw [hcomplaints, foldl_cons] at hnone
    have hedits : Edits (fun _ _ _ => True) (fun _ => True) (p.report branch c.code c.arguments c.subject c.span)
        (cs.foldl (fun p c => p.report branch c.code c.arguments c.subject c.span)
          (p.report branch c.code c.arguments c.subject c.span)) :=
      (lenient_edits fun _ _ _ _ => trivial).foldl (fun p c _ => .single (.report c.arguments c.span trivial)) _
    have hfirst := hedits.findings_eq_nil hnone
    rw [(report_spec ..).2] at hfirst
    exact absurd (append_eq_nil_iff.mp hfirst).2 (cons_ne_nil _ _)

end Progress

namespace WalkAction

open Progress

variable {p : Progress} {u d id : PairId}

section

variable (n : Nat) (context : Context)

theorem ofEntering_keepsTies (id : PairId) (p : Progress) :
    KeepsTies p.set.modules p (ofEntering n context id p).2 := by
  unfold ofEntering
  split
  · exact .refl p
  · dsimp only
    have hnoted := openDefinition_noted p context.branch id
    exact ⟨.of_core hnoted.core_eq, hnoted.reports⟩

theorem ofTie_checks (husage : (p.tree.kind id).isAliasUsage)
    (htied : (ofTie n context id p).2.tree.kind u = .aliasUsage (some d)) :
    p.tree.kind u = .aliasUsage (some d) ∨ ∃ branch, check branch u d ∈ (ofTie n context id p).1 := by
  unfold ofTie at htied ⊢
  cases hfound : context.scope.aliasFor? (p.tree.get id).nameText with
  | none =>
    rw [hfound] at htied
    exact .inl ((kind_eq_aliasUsage_of_core (reportName_core ..) u (some d)).mp htied)
  | some e =>
    rw [hfound] at htied
    have htie : Ties p.set.modules p (p.tie id e) id e [] := .tie husage e
    have hties : ∃ circle, Ties p.set.modules p
        (if context.chain.contains e then ([], (p.tie id e).closeCircle context e)
          else if (p.tie id e).entered.contains e then ([], p.tie id e)
          else ofEntering n (context.around ((p.tie id e).announceAround context.branch e).tree e) e
            ((p.tie id e).announceAround context.branch e)).2 id e circle := by
      split
      · exact ⟨_, htie.trans_marks (foldl_markCircular_marks ..)⟩
      · split
        · exact ⟨[], htie⟩
        · have haround := announceAround_noted (p.tie id e) context.branch e
          have hentering := ofEntering_keepsTies n
            (context.around ((p.tie id e).announceAround context.branch e).tree e) e
            ((p.tie id e).announceAround context.branch e)
          rw [haround.modules_eq] at hentering
          exact ⟨[], htie.trans_keeps (haround.keepsTies.trans hentering)⟩
    obtain ⟨circle, hties⟩ := hties
    rcases (hties.tie_iff u (some d)).mp htied with ⟨rfl, heq⟩ | ⟨-, hold⟩
    · cases heq
      exact .inr ⟨context.branch, mem_append_right _ (mem_singleton_self _)⟩
    · exact .inl hold

theorem ofVisit_checks (hwf : p.tree.WellFormed)
    (htied : (ofVisit n context id p).2.tree.kind u = .aliasUsage (some d)) :
    p.tree.kind u = .aliasUsage (some d) ∨ ∃ branch, check branch u d ∈ (ofVisit n context id p).1 := by
  have hbegin : SameTies p.set.modules p (p.beginPair context.branch id) := by
    have hmet : SameTies p.set.modules p { p with handled := id :: p.handled } := .of_core rfl
    refine (hmet.trans ?_).trans (.of_core (beginPair_noted p context.branch id).core_eq)
    exact .splitScope (p := { p with handled := id :: p.handled }) hwf id
  cases hdef : (p.tree.kind id).isAliasDefinition with
  | true =>
    simp only [ofVisit, hdef, if_true] at htied
    split at htied
    · exact .inl htied
    · exact .inl (((ofEntering_keepsTies n _ id p).tie_iff u (some d)).mp htied)
  | false =>
    cases husage : (p.tree.kind id).isAliasUsage with
    | true =>
      rw [ofVisit_usage n context husage] at htied ⊢
      have hkind := (flag_beginPair hwf context.branch id isAliasUsage_shape).trans husage
      rcases ofTie_checks n context hkind htied with hold | ⟨branch, hcheck⟩
      · exact .inl ((hbegin.tie_iff u (some d)).mp hold)
      · exact .inr ⟨branch, mem_append_left _ hcheck⟩
    | false =>
      rw [ofVisit_plain n context hwf hdef husage] at htied
      have hbegun := (kind_eq_aliasUsage_of_core (noteKind_noted ..).core_eq u (some d)).mp htied
      exact .inl ((hbegin.tie_iff u (some d)).mp hbegun)

end

/-- A step of the walk that ties a usage puts the check of the usage on the agenda. -/
theorem perform_checks (action : WalkAction) (hwf : p.tree.WellFormed)
    (htied : (action.perform p).2.tree.kind u = .aliasUsage (some d)) :
    p.tree.kind u = .aliasUsage (some d) ∨ ∃ branch, check branch u d ∈ (action.perform p).1 := by
  have hnoted : ∀ {p' : Progress}, Noted p p' → p'.tree.kind u = .aliasUsage (some d) →
      p.tree.kind u = .aliasUsage (some d) := fun hnoted =>
    (kind_eq_aliasUsage_of_core hnoted.core_eq u (some d)).mp
  cases action with
  | visit n context id =>
    cases n with
    | zero => exact .inl htied
    | succ n => exact ofVisit_checks n context hwf htied
  | held n context id => exact .inl htied
  | settle id => exact .inl (hnoted (settleValueKind_noted p id) htied)
  | check branch u e => exact .inl (hnoted (checkArguments_noted p branch u e) htied)
  | nested n context => exact .inl htied
  | leave id outer => exact .inl (hnoted (settleValueKind_noted p id) htied)

end WalkAction

namespace Config

open Progress

variable {set : ModuleSet} {m : Config} {u d : PairId}

theorem leads_kinds (hset : set.Parsed) (hm : Leads (start set) m)
    (htied : m.progress.tree.kind u = .aliasUsage (some d)) :
    (set.tree.kind u).isAliasUsage ∧ (set.tree.kind d).isAliasDefinition := by
  have husage := leads_flag hset isAliasUsage_shape rfl hm u
  have hdef := leads_flag hset isAliasDefinition_shape rfl hm d
  rw [htied] at husage
  exact ⟨husage.symm, hdef.symm.trans (leads_tied hset hm htied)⟩

/-- While nothing is reported, a usage that is tied is complete or yet to be checked. -/
theorem leads_checked (hset : set.Parsed) (hm : Leads (start set) m) :
    m.progress.findings = [] → ∀ u d, m.progress.tree.kind u = .aliasUsage (some d) →
      (∃ branch, .check branch u d ∈ m.agenda) ∨ set.tree.Complete u d := by
  refine induction_on (P := fun m => m.progress.findings = [] → ∀ u d, m.progress.tree.kind u = .aliasUsage (some d) →
    (∃ branch, .check branch u d ∈ m.agenda) ∨ set.tree.Complete u d) ?_ ?_ hm
  · intro _ u d htied
    have hhandled := ((hset.bound .refl).of_tied htied).1
    rw [show (start set).worklist.progress.handled = [] from (start_noted set).handled_eq] at hhandled
    cases hhandled
  · intro m m' hm ih hstep hnone u d htied
    have hwf := wellFormed_of_leads hset hm
    obtain ⟨action, rest, p⟩ := hstep
    have hbefore : p.findings = [] := (action.perform_edits hwf).findings_eq_nil hnone
    rcases action.perform_checks hwf htied with hold | ⟨branch, hcheck⟩
    · rcases ih hbefore u d hold with ⟨branch, hcheck⟩ | hcomplete
      · rcases mem_cons.mp hcheck with rfl | hrest
        · have hcomplaints := usageComplaints_eq_nil hnone
          obtain ⟨scopes, hscopes⟩ := leads_splitsInto hset hm
          obtain ⟨husage, hdef⟩ := leads_kinds hset hm hold
          refine .inr ((hscopes.complete_iff hset.tree_parsed.wellFormed hwf husage hdef).mp ?_)
          exact complete_of_usageComplaints hcomplaints
        · exact .inl ⟨branch, mem_append_right _ hrest⟩
      · exact .inr hcomplete
    · exact .inl ⟨branch, mem_append_left _ hcheck⟩

end Config

/-- If resolving finds nothing, every usage gives what its definition asks for. -/
theorem ModuleSet.Parsed.run_complete {set : ModuleSet} (hset : set.Parsed) (hnone : (run set).findings = [])
    {u d : PairId} (htied : (run set).tree.kind u = .aliasUsage (some d)) :
    (run set).tree.Complete u d := by
  have hrun := start_leads_run set
  obtain ⟨scopes, hscopes⟩ := leads_splitsInto hset hrun
  obtain ⟨husage, hdef⟩ := leads_kinds hset hrun htied
  rw [hscopes.complete_iff hset.tree_parsed.wellFormed hset.run_tracked.covered.wellFormed husage hdef]
  refine (leads_checked hset hrun hnone u d htied).resolve_left ?_
  rintro ⟨branch, hcheck⟩
  cases hcheck

end PairMarkup
