import PairMarkup.Proofs.Resolution.Effects
import PairMarkup.Proofs.Resolution.Keeping

namespace PairMarkup

open Kind Progress

/-- What a parameter is bound to. -/
def Kind.binding? : Kind → Option (Option PairId)
  | .parameter definition _ => some definition
  | _ => none

theorem Pair.binding?_lasts : Pair.Lasts fun pair => pair.kind.binding? where
  choices f pair := by
    unfold mapChoices
    split
    · rename_i hkind
      rw [hkind]
      rfl
    · rfl
  info f pair := by
    unfold mapInfo
    split
    · rename_i hkind
      rw [hkind]
      rfl
    · rfl
  tied pair definition husage := by
    cases hkind : pair.kind <;> simp [hkind, isAliasUsage] at husage
    rfl
  likened _ _ _ := rfl
  emptied _ _ := rfl
  moved _ _ := rfl
  split _ _ _ _ := rfl

namespace Progress

/-- The parameters that were handled are bound by place, and the others are not bound. -/
structure BindsParameters (p : Progress) : Prop where
  handled : ∀ x, (p.tree.kind x).isParameter = true → x ∈ p.handled →
    (p.tree.kind x).binding? = some (p.tree.enclosingDefinition? x)
  unhandled : ∀ x, (p.tree.kind x).isParameter = true → x ∉ p.handled → (p.tree.kind x).binding? = some none

theorem noteKind_binds {p : Progress} (branch : Option Branch) (inner : Scope) {x : PairId}
    (hunbound : (p.tree.kind x).binding? = some none) :
    ((p.noteKind branch inner x).tree.kind x).binding? = some (p.tree.enclosingDefinition? x) := by
  obtain ⟨place, hkind⟩ : ∃ place, p.tree.kind x = .parameter none place := by
    cases hkind : p.tree.kind x <;> simp_all [binding?]
  have hlt : x < p.tree.size := PairTree.lt_size_of_kind (by simp [hkind, isComment])
  simp only [noteKind, hkind, bindParameter]
  split
  · rename_i hnone
    rw [hnone, ← hunbound]
    exact (reportName_keeps Pair.binding?_lasts p branch _ x).same x hlt
  · rename_i d hsome
    have hpair : (p.tree.get x).kind = .parameter none place := hkind
    change ((p.tree.modify x _).get x).kind.binding? = _
    rw [PairTree.get_modify_self hlt, hpair, hsome]
    rfl

end Progress

namespace Config

open Progress WalkAction PairTree

variable {set : ModuleSet}

theorem start_bindsParameters (hset : set.Parsed) : (start set).progress.BindsParameters := by
  have hnoted := start_noted set
  refine ⟨fun x _ hhandled => ?_, fun x hparameter _ => ?_⟩
  · rw [hnoted.handled_eq] at hhandled
    cases hhandled
  · have hold : (set.tree.kind x).isParameter := (leads_flag hset isParameter_shape rfl .refl x).symm.trans hparameter
    refine ((start_keeps Pair.binding?_lasts set).same x (lt_size_of_parameter hold)).trans ?_
    have hunresolved := hset.tree_parsed.unresolved x
    change (set.tree.kind x).binding? = _
    cases hkind : set.tree.kind x <;> simp_all [isParameter, Kind.Unresolved, binding?]

theorem visit_binds {p : Progress} (hwf : p.tree.WellFormed) (n : Nat) (context : Context) {x : PairId}
    (hunbound : (p.tree.kind x).binding? = some none) :
    ((ofVisit n context x p).2.tree.kind x).binding? =
      some ((ofVisit n context x p).2.tree.enclosingDefinition? x) := by
  obtain ⟨place, hkind⟩ : ∃ place, p.tree.kind x = .parameter none place := by
    cases hkind : p.tree.kind x <;> simp_all [binding?]
  have hlt : x < p.tree.size := lt_size_of_kind (by simp [hkind, isComment])
  have hbegin := (beginPair_keeps Pair.binding?_lasts hwf context.branch x).same x hlt
  rw [ofVisit_plain n context hwf (by rw [hkind]; rfl) (by rw [hkind]; rfl)]
  rw [enclosingDefinition?_eq_of_shape (noteKind_noted ..).shape_eq]
  exact noteKind_binds _ _ (hbegin.trans hunbound)

theorem Step.bindsParameters (hset : set.Parsed) {m m' : Config} (hstep : Step m m')
    (hm : Leads (start set) m) (h : m.progress.BindsParameters) : m'.progress.BindsParameters := by
  have hwf := wellFormed_of_leads hset hm
  have hplaces := hstep.keepsPlaces hset hm
  have hcovered := (leads_tracked hset hm).2.covered
  have hflag : ∀ x, (m'.progress.tree.kind x).isParameter = (m.progress.tree.kind x).isParameter :=
    fun x => (leads_flag hset isParameter_shape rfl (hm.tail hstep) x).trans
      (leads_flag hset isParameter_shape rfl hm x).symm
  obtain ⟨action, rest, p⟩ := hstep
  dsimp only at *
  -- Either the parameter is visited just now, or nothing about it changes.
  have hcases : ∀ x, (p.tree.kind x).isParameter = true →
      (x ∈ (action.perform p).2.handled ∧ ((action.perform p).2.tree.kind x).binding? =
        some ((action.perform p).2.tree.enclosingDefinition? x)) ∨
      ((x ∈ (action.perform p).2.handled ↔ x ∈ p.handled) ∧
        ((action.perform p).2.tree.kind x).binding? = (p.tree.kind x).binding?) := by
    intro x hparameter
    have hdef := not_definition_of_parameter hparameter
    by_cases hvisit : ∃ n context, action = .visit (n + 1) context x
    · obtain ⟨n, context, rfl⟩ := hvisit
      have hnew : x ∉ p.handled := (Covered.not_met_of_plain hcovered hdef).1
      refine .inl ⟨?_, visit_binds hwf n context (h.unhandled x hparameter hnew)⟩
      exact ofVisit_handled n context hdef ▸ List.mem_cons_self
    · have hlt := lt_size_of_parameter hparameter
      exact .inr ⟨action.mem_handled_perform_iff p hvisit, action.perform_same Pair.binding?_lasts hwf hlt
        fun n context heq => absurd ⟨n, context, heq⟩ hvisit⟩
  refine ⟨fun x hparameter hhandled => ?_, fun x hparameter hhandled => ?_⟩
  · rw [hflag] at hparameter
    rcases hcases x hparameter with ⟨-, hbound⟩ | ⟨hiff, hsame⟩
    · exact hbound
    · rw [hsame, hplaces.enclosing_eq x (lt_size_of_parameter hparameter)]
      exact h.handled x hparameter (hiff.mp hhandled)
  · rw [hflag] at hparameter
    rcases hcases x hparameter with ⟨hmem, -⟩ | ⟨hiff, hsame⟩
    · exact absurd hmem hhandled
    · rw [hsame]
      exact h.unhandled x hparameter (mt hiff.mpr hhandled)

theorem leads_bindsParameters (hset : set.Parsed) {m : Config} (hm : Leads (start set) m) :
    m.progress.BindsParameters :=
  induction_on (P := fun m => m.progress.BindsParameters) (start_bindsParameters hset)
    (fun _ _ hm h hstep => hstep.bindsParameters hset hm h) hm

end Config

/-- At the end of the walk, the parameters below modules are bound by place. -/
theorem ModuleSet.Parsed.run_binding? {set : ModuleSet} (hset : set.Parsed) {m x : PairId}
    (hm : m ∈ set.modules) (hx : (run set).tree.HangsFrom m x)
    (hparameter : ((run set).tree.kind x).isParameter) :
    ((run set).tree.kind x).binding? = some ((run set).tree.enclosingDefinition? x) := by
  refine (Config.leads_bindsParameters hset (Config.start_leads_run set)).handled x hparameter ?_
  exact hset.run_handled hm hx (not_definition_of_parameter hparameter)

end PairMarkup
