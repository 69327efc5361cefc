import PairMarkup.Proofs.Resolution.Effects
import PairMarkup.Proofs.Session

namespace PairMarkup

open List PairTree

namespace Progress

/-- The findings that the name of a usage stands for nothing. -/
def notDefined (p : Progress) (u : PairId) : List Finding :=
  p.findings.filter fun f => f.subject = u ∧ f.diagnostic.code = .aliasIsNotDefined

/-- A usage is tied to `r`, and was reported if that is nothing. -/
structure BoundTo (p : Progress) (u : PairId) (r : Option PairId) : Prop where
  kind_eq : p.tree.kind u = .aliasUsage r
  notDefined_eq : p.notDefined u = if r = none then [p.tree.notDefinedAt u] else []

/-- Usages that were handled are bound by place, and the others are as they were
    written. -/
structure Bound (modules : List PairId) (p : Progress) : Prop where
  handled : ∀ u, (p.tree.kind u).isAliasUsage = true → u ∈ p.handled →
    p.BoundTo u (p.tree.lexical? modules (p.tree.get u).nameText u)
  unhandled : ∀ u, (p.tree.kind u).isAliasUsage = true → u ∉ p.handled →
    p.tree.kind u = .aliasUsage none ∧ p.notDefined u = []

variable {modules : List PairId} {p p' p₁ : Progress} {u e : PairId} {r : Option PairId}

/-- A usage that is tied was handled, and it is tied by place. -/
theorem Bound.of_tied (h : p.Bound modules) (hkind : p.tree.kind u = .aliasUsage (some e)) :
    u ∈ p.handled ∧ p.tree.lexical? modules (p.tree.get u).nameText u = some e := by
  have husage : (p.tree.kind u).isAliasUsage := by
    rw [hkind]
    rfl
  by_cases hhandled : u ∈ p.handled
  · have hbound := (h.handled u husage hhandled).kind_eq
    rw [hkind] at hbound
    exact ⟨hhandled, (Kind.aliasUsage.inj hbound).symm⟩
  · have hnone := (h.unhandled u husage hhandled).1
    rw [hkind] at hnone
    cases hnone

theorem lexical_eq_of_places (h : KeepsPlaces modules p p') (hu : (p.tree.kind u).isAliasUsage) :
    p'.tree.lexical? modules (p'.tree.get u).nameText u = p.tree.lexical? modules (p.tree.get u).nameText u := by
  rw [h.name_eq u hu, h.lexical_eq u (lt_size_of_usage hu)]

theorem notDefined_eq_of_reported {P : Code → Prop} (h : Reported P p.findings p'.findings)
    (hcode : ¬ P .aliasIsNotDefined) (u : PairId) : p'.notDefined u = p.notDefined u := by
  refine h.filter_eq fun f hf => ?_
  rw [(of_decide_eq_true hf).2]
  exact hcode

theorem notDefined_reportName (p : Progress) (branch : Option Branch) (u x : PairId) :
    (p.reportName branch .aliasIsNotDefined u).notDefined x =
      p.notDefined x ++ if x = u then [p.tree.notDefinedAt u] else [] := by
  have hfindings := (report_spec p branch .aliasIsNotDefined [(p.tree.get u).nameText] u (p.tree.get u).nameSpan).2
  rw [notDefined, reportName, hfindings, filter_append, notDefined]
  by_cases hx : x = u
  · simp [hx, Diagnostic.of, notDefinedAt]
  · simp [hx, Ne.symm hx]

/-- A usage is as it was: handled or not, tied or not, reported or not. -/
structure SameUsage (p p' : Progress) (u : PairId) : Prop where
  handled_iff : u ∈ p'.handled ↔ u ∈ p.handled
  tie_iff : ∀ r, p'.tree.kind u = .aliasUsage r ↔ p.tree.kind u = .aliasUsage r
  notDefined_eq : p'.notDefined u = p.notDefined u

/-- Whoever keeps the places has to look at the usages that were handled just now. -/
theorem Bound.of_places (h : p.Bound modules) (hplaces : KeepsPlaces modules p p')
    (hstep : ∀ u, (p.tree.kind u).isAliasUsage → SameUsage p p' u ∨
      u ∈ p'.handled ∧ p'.BoundTo u (p.tree.lexical? modules (p.tree.get u).nameText u)) :
    p'.Bound modules := by
  refine ⟨fun u hu hmem => ?_, fun u hu hmem => ?_⟩
  · rw [hplaces.usage_eq] at hu
    rw [lexical_eq_of_places hplaces hu]
    rcases hstep u hu with hsame | ⟨-, hbound⟩
    · obtain ⟨hkind, hreports⟩ := h.handled u hu (hsame.handled_iff.mp hmem)
      refine ⟨(hsame.tie_iff _).mpr hkind, ?_⟩
      rw [hsame.notDefined_eq, hplaces.notDefinedAt_eq u hu, hreports]
    · exact hbound
  · rw [hplaces.usage_eq] at hu
    rcases hstep u hu with hsame | ⟨hhandled, -⟩
    · obtain ⟨hkind, hreports⟩ := h.unhandled u hu (mt hsame.handled_iff.mpr hmem)
      exact ⟨(hsame.tie_iff _).mpr hkind, hsame.notDefined_eq.trans hreports⟩
    · exact absurd hhandled hmem

theorem Effect.bound (heffect : Effect modules p p') (h : p.Bound modules) : p'.Bound modules := by
  cases heffect with
  | idle hkeeps hhandled =>
    refine h.of_places hkeeps.toKeepsPlaces fun u hu => .inl ⟨hhandled u hu, hkeeps.tie_iff u, ?_⟩
    exact notDefined_eq_of_reported hkeeps.reports (fun hcode => hcode (.inl rfl)) u
  | @report p₁ branch u hu hnew hhandled hlexical hkeeps heq =>
    have hsame : SameTies modules p p' := heq ▸ hkeeps.toSameTies.trans (.reportName ..)
    have hnotDefined : ∀ x, p'.notDefined x = p.notDefined x ++ if x = u then [p₁.tree.notDefinedAt u] else [] := by
      intro x
      rw [heq, notDefined_reportName, notDefined_eq_of_reported hkeeps.reports fun hcode => hcode (.inl rfl)]
    refine h.of_places hsame.toKeepsPlaces fun x hx => ?_
    by_cases hxu : x = u
    · subst hxu
      obtain ⟨hkind, hreports⟩ := h.unhandled x hx hnew
      refine .inr ⟨hhandled ▸ mem_cons_self, ?_⟩
      rw [hlexical]
      refine ⟨(hsame.tie_iff x none).mpr hkind, ?_⟩
      rw [hnotDefined, hreports, hsame.notDefinedAt_eq x hx, hkeeps.notDefinedAt_eq x hx]
      simp
    · refine .inl ⟨?_, hsame.tie_iff x, ?_⟩
      · rw [hhandled, mem_cons, or_iff_right hxu]
      · rw [hnotDefined, if_neg hxu, append_nil]
  | @tie u e circle hu hnew hhandled hlexical hties =>
    have hnotDefined := notDefined_eq_of_reported hties.reports fun hcode => hcode rfl
    refine h.of_places hties.toKeepsPlaces fun x hx => ?_
    by_cases hxu : x = u
    · subst hxu
      obtain ⟨-, hreports⟩ := h.unhandled x hx hnew
      refine .inr ⟨hhandled ▸ mem_cons_self, ?_⟩
      rw [hlexical]
      exact ⟨(hties.tie_iff x _).mpr (.inl ⟨rfl, rfl⟩), (hnotDefined x).trans hreports⟩
    · refine .inl ⟨?_, fun r => ?_, hnotDefined x⟩
      · rw [hhandled, mem_cons, or_iff_right hxu]
      · rw [hties.tie_iff]
        simp [hxu]

end Progress

namespace ModuleSet.Parsed

open Progress Config

variable {set : ModuleSet}

theorem start_bound (hset : set.Parsed) : (start set).worklist.progress.Bound set.modules := by
  have hnoted := (start_noted set).forget
  have hunresolved : ∀ u, (set.tree.kind u).isAliasUsage → set.tree.kind u = .aliasUsage none := by
    intro u hu
    have h := hset.tree_parsed.unresolved u
    cases hkind : set.tree.kind u <;> simp_all [Kind.isAliasUsage, Kind.Unresolved]
  refine ⟨fun u _ hhandled => ?_, fun u hu _ => ⟨?_, ?_⟩⟩
  · rw [show (start set).worklist.progress.handled = [] from hnoted.handled_eq] at hhandled
    cases hhandled
  · refine (kind_eq_aliasUsage_of_core hnoted.core_eq u none).mpr (hunresolved u ?_)
    exact (isAliasUsage_eq_of_shape hnoted.shape_eq u).symm.trans hu
  · exact notDefined_eq_of_reported hnoted.reports (fun hcode => hcode (.inl rfl)) u

theorem bound (hset : set.Parsed) {m : Config} (hm : Leads (start set) m) : m.worklist.progress.Bound set.modules :=
  worklist_induction hset (P := fun o => o.progress.Bound set.modules) hset.start_bound
    (fun _ _ htracked hbound hstep => (hstep.effect htracked).bound hbound) hm

theorem run_boundTo (hset : set.Parsed) {m u : PairId} (hm : m ∈ set.modules) (hu : (run set).tree.HangsFrom m u)
    (husage : ((run set).tree.kind u).isAliasUsage) :
    (run set).BoundTo u ((run set).tree.lexical? set.modules ((run set).tree.get u).nameText u) := by
  have hhandled := hset.run_handled hm hu (Kind.isAliasDefinition_of_usage husage)
  obtain ⟨hkind, hreports⟩ := (hset.bound (start_leads_run set)).handled u husage hhandled
  exact ⟨hkind, hreports⟩

end ModuleSet.Parsed

namespace Session

/-- A usage anywhere below a module is tied to what its name stands for where it is
    written. It is reported, once, at its name, if that is nothing. -/
theorem usage_is_bound_by_place {limit : Option Nat} {sources : List Source} {parsed resolved : Session}
    (hparse : (start limit).parseAll sources = .ok parsed) (hresolve : parsed.resolve = .ok resolved)
    {m u : PairId} (hm : m ∈ resolved.set.modules) (hu : resolved.set.tree.HangsFrom m u)
    (husage : (resolved.set.tree.kind u).isAliasUsage = true) :
    let t := resolved.set.tree
    let findings := parsed.set.resolve.2
    (∀ r, t.kind u = .aliasUsage r ↔ t.Denotes resolved.set.modules u (t.get u).nameText r) ∧
      (∀ r, t.kind u = .aliasUsage r →
        findings.filter (fun f => f.subject = u ∧ f.diagnostic.code = .aliasIsNotDefined) =
          if r = none then [⟨u, .of .aliasIsNotDefined [(t.get u).nameText] (t.get u).file
            (t.get u).fileIndex (t.get u).nameSpan .resolve⟩] else []) ∧
      resolved.collection.entries = parsed.collection.entries ++ findings.map (·.diagnostic) := by
  have hparsed := parsed_of_start hparse
  have htree := run_tree_eq hresolve
  have hmodules := modules_eq hparse hresolve
  have hwf : resolved.set.tree.WellFormed := htree ▸ hparsed.run_tracked.covered.wellFormed
  obtain ⟨hkind, hreports⟩ := hparsed.run_boundTo (hmodules ▸ hm) (htree ▸ hu) (htree ▸ husage)
  rw [htree, hmodules] at hkind hreports
  refine ⟨fun r => ?_, fun r hr => ?_, (resolve_spec hresolve).2⟩
  · rw [hwf.denotes_iff, hkind, Kind.aliasUsage.injEq]
  · rw [hkind] at hr
    cases hr
    exact hreports

/-- Two modules. In the first, a definition has usages of a definition nested in it that
    comes later, of one in the other module and of none; each of the first two refers to
    the other. -/
def tangledSources : List Source := [ ⟨"a.pxml", .xml, "!$x:\n    $y\n    $z\n    $w\n    !$y:\n        $x\n".toList⟩,
  ⟨"b.pxml", .xml, "!$z:\n    e = 1\n!$y:\n    f = 2\n".toList⟩]

/-- The nested definition goes before that of the other module, and the one usage
    without a definition is reported. -/
theorem tangledSources_bound_by_place : ∃ parsed resolved,
    (start none).parseAll tangledSources = .ok parsed ∧ parsed.resolve = .ok resolved ∧
      resolved.set.tree.Denotes [0, 7] 2 "y" (some 5) ∧ resolved.set.tree.Denotes [0, 7] 4 "w" none ∧
      (parsed.set.resolve.2.filter fun f => f.subject = 4 ∧ f.diagnostic.code = .aliasIsNotDefined) =
        [resolved.set.tree.notDefinedAt 4] := by
  obtain ⟨parsed, resolved, hparse, hresolve, hcheck⟩ := exists_confirmed
    (show confirms none tangledSources (fun _ resolved =>
      resolved.set.modules = [0, 7] ∧ 1 ∈ (resolved.set.tree.get 0).held ∧
        2 ∈ (resolved.set.tree.get 1).held ∧ 4 ∈ (resolved.set.tree.get 1).held ∧
        resolved.set.tree.kind 2 = .aliasUsage (some 5) ∧ resolved.set.tree.kind 4 = .aliasUsage none ∧
        (resolved.set.tree.get 2).nameText = "y" ∧ (resolved.set.tree.get 4).nameText = "w") = true by
      decide +kernel)
  obtain ⟨hmodules, hx, hy, hw, hkindy, hkindw, hnamey, hnamew⟩ := hcheck
  have hm : 0 ∈ resolved.set.modules := hmodules ▸ List.mem_cons_self
  have hboundy := usage_is_bound_by_place hparse hresolve hm (.tail (.tail .refl hx) hy) (by rw [hkindy]; rfl)
  have hboundw := usage_is_bound_by_place hparse hresolve hm (.tail (.tail .refl hx) hw) (by rw [hkindw]; rfl)
  refine ⟨parsed, resolved, hparse, hresolve, ?_, ?_, hboundw.2.1 none hkindw⟩
  · exact hmodules ▸ hnamey ▸ (hboundy.1 (some 5)).mp hkindy
  · exact hmodules ▸ hnamew ▸ (hboundw.1 none).mp hkindw

end Session

end PairMarkup
