import PairMarkup.Proofs.Expansion.Sources

namespace PairMarkup

open List

namespace PairTree

variable {t : PairTree} {d p x : PairId} {name : String} {info : ParameterInfo}

/-- A parameter of that name is written in the definition, and not in one that is nested in it. -/
structure Occurs (t : PairTree) (d : PairId) (name : String) (x : PairId) : Prop where
  parameter : (t.kind x).isParameter = true
  enclosing : t.enclosingDefinition? x = some d
  named : (t.get x).name = some name

theorem occurs_iff : t.Occurs d name x ↔
    (t.kind x).isParameter ∧ t.enclosingDefinition? x = some d ∧ (t.get x).name = some name :=
  ⟨fun h => ⟨h.parameter, h.enclosing, h.named⟩, fun ⟨hparameter, henclosing, hnamed⟩ =>
    ⟨hparameter, henclosing, hnamed⟩⟩

instance : Decidable (t.Occurs d name x) := decidable_of_iff _ occurs_iff.symm

/-- Something is written behind the name of the parameter: a delimiter, a value or content. -/
def HasDefault (t : PairTree) (x : PairId) : Prop :=
  (t.get x).delimiter ≠ .none ∨ (t.get x).value ≠ none ∨ ∃ c ∈ t.children x, (t.kind c).isComment = false

theorem hasDefault_iff : t.HasDefault x ↔ t.lacksDefault x = false := by
  have hcontent : (t.contentChildren x).isEmpty = false ↔ ∃ c ∈ t.children x, (t.kind c).isComment = false := by
    simp [contentChildren, isEmpty_eq_false_iff, filter_eq_nil_iff]
  simp only [HasDefault, lacksDefault, Bool.and_eq_false_iff, hcontent, decide_eq_false_iff_not, or_assoc,
    Option.isNone_eq_false_iff, Option.isSome_iff_ne_none]

instance : Decidable (t.HasDefault x) := decidable_of_iff _ hasDefault_iff.symm

/-- The signature has no name but with the first parameter of that name. -/
theorem find?_of_mem_firstByName_go {seen : List String} {ids : List PairId}
    (h : (name, info) ∈ firstByName.go t seen ids) :
    name ∉ seen ∧ ∃ p, ids.find? (fun id => (t.get id).name = some name) = some p ∧
      info = ⟨p, t.lacksDefault p, t.takesValue p⟩ := by
  induction ids generalizing seen with
  | nil => cases h
  | cons id ids ih =>
    rw [firstByName.go] at h
    cases hname : (t.get id).name with
    | none =>
      rw [find?_cons_of_neg (by simp [hname])]
      rw [hname] at h
      exact ih h
    | some other =>
      rw [hname] at h
      dsimp only at h
      split at h
      · rename_i hseen
        obtain ⟨hnew, hfind⟩ := ih h
        have hne : other ≠ name := by
          rintro rfl
          exact hnew (elem_iff.mp hseen)
        rw [find?_cons_of_neg (by simp [hname, hne])]
        exact ⟨hnew, hfind⟩
      · rename_i hseen
        rcases mem_cons.mp h with hhead | htail
        · obtain ⟨rfl, rfl⟩ := Prod.mk.inj hhead
          rw [find?_cons_of_pos (by simp [hname])]
          exact ⟨fun hmem => hseen (elem_iff.mpr hmem), id, rfl, rfl⟩
        · obtain ⟨hnew, hfind⟩ := ih htail
          have hne : other ≠ name := by
            rintro rfl
            exact hnew mem_cons_self
          rw [find?_cons_of_neg (by simp [hname, hne])]
          exact ⟨fun hmem => hnew (mem_cons_of_mem _ hmem), hfind⟩

theorem mem_signature_iff : (name, info) ∈ (t.signature d).parameters ↔
      ∃ p, t.declaration? d name = some p ∧ info = ⟨p, t.lacksDefault p, t.takesValue p⟩ := by
  constructor
  · exact fun h => (find?_of_mem_firstByName_go h).2
  · rintro ⟨p, hp, rfl⟩
    exact mem_signature_of_declaration? hp

section

variable (hwf : t.WellFormed)

include hwf

/-- The parameters at or below a pair that belong to the same definition, in the order in which they are written. -/
theorem parametersFrom_eq_filter {root : PairId} (hroot : root < t.size) :
    t.parametersFrom root = (t.preorder root).filter fun x =>
      (t.kind x).isParameter && decide (t.enclosingDefinition? x = t.enclosingDefinition? root) := by
  refine hwf.induction_down (P := fun root => t.parametersFrom root = (t.preorder root).filter fun x =>
    (t.kind x).isParameter && decide (t.enclosingDefinition? x = t.enclosingDefinition? root)) ?_ hroot
  intro root hroot ih
  rw [hwf.acyclic.parametersFrom_eq hroot]
  split
  · rename_i hdef
    refine (filter_eq_nil_iff.mpr fun x hx hsame => ?_).symm
    rw [Bool.and_eq_true, decide_eq_true_iff] at hsame
    obtain ⟨e, he, hnot⟩ := exists_enclosing_not_above hwf hdef ((hwf.mem_preorder_iff hroot).mp hx) hsame.1
    exact hnot (mem_of_find?_eq_some (hsame.2.symm.trans he))
  · rename_i hdef
    have hheld : (t.get root).held.flatMap t.parametersFrom = ((t.get root).held.flatMap t.preorder).filter fun x =>
        (t.kind x).isParameter && decide (t.enclosingDefinition? x = t.enclosingDefinition? root) := by
      rw [filter_flatMap]
      refine flatMap_congr fun c hc => ?_
      rw [ih c hc, enclosingDefinition?_held hwf (Bool.eq_false_iff.mpr hdef) hc]
    rw [hwf.acyclic.preorder_eq_cons hroot, filter_cons, hheld]
    cases (t.kind root).isParameter <;> simp

theorem ownParameters_eq_filter (hd : d < t.size) (hdef : (t.kind d).isAliasDefinition) :
    t.ownParameters d = (t.preorder d).filter fun x =>
      (t.kind x).isParameter && decide (t.enclosingDefinition? x = some d) := by
  have hself : (t.kind d).isParameter = false := by
    cases hparameter : (t.kind d).isParameter with
    | false => rfl
    | true => exact absurd hdef (Bool.eq_false_iff.mp (Kind.not_definition_of_parameter hparameter))
  rw [ownParameters_eq, hwf.acyclic.preorder_eq_cons hd, filter_cons, hself, Bool.false_and,
    if_neg Bool.false_ne_true, filter_flatMap]
  refine flatMap_congr fun c hc => ?_
  rw [parametersFrom_eq_filter hwf (hwf.held_lt_size hc), enclosingDefinition?_body hwf hdef hc]

/-- What counts as the declaration of a name is the first of its occurrences. -/
theorem declaration?_eq_some_iff (hd : d < t.size) (hdef : (t.kind d).isAliasDefinition) :
    t.declaration? d name = some p ↔ t.Occurs d name p ∧
      ∃ before after, t.preorder d = before ++ p :: after ∧ ∀ x ∈ before, ¬ t.Occurs d name x := by
  rw [declaration?, ownParameters_eq_filter hwf hd hdef, find?_filter, find?_eq_some_iff_append]
  simp only [Bool.not_eq_true', decide_eq_true_iff, decide_eq_false_iff_not, Bool.and_eq_true, and_assoc, occurs_iff]

end

end PairTree

namespace Session

/-- A name can be left out by the usages of a definition just if the first parameter of that name has a default.
    So one of its parameters has a default then; but the first has to be the one. -/
theorem optional_iff_default_first {limit : Option Nat} {sources : List Source} {parsed resolved : Session}
    (hparse : (start limit).parseAll sources = .ok parsed) (hresolve : parsed.resolve = .ok resolved) {d : PairId}
    (hdef : (resolved.set.tree.kind d).isAliasDefinition = true) (name : String) :
    let t := resolved.set.tree
    ((∃ info, (name, info) ∈ (t.signature d).parameters ∧ info.isRequired = false) ↔
      ∃ before p after, t.preorder d = before ++ p :: after ∧ (∀ x ∈ before, ¬ t.Occurs d name x) ∧
        t.Occurs d name p ∧ t.HasDefault p) := by
  intro t
  have hwf : t.WellFormed := resolved_wellFormed hparse hresolve
  have hd : d < t.size := PairTree.lt_size_of_definition hdef
  constructor
  · rintro ⟨info, hinfo, hoptional⟩
    obtain ⟨p, hp, rfl⟩ := PairTree.mem_signature_iff.mp hinfo
    obtain ⟨hoccurs, before, after, hsplit, hbefore⟩ := (PairTree.declaration?_eq_some_iff hwf hd hdef).mp hp
    exact ⟨before, p, after, hsplit, hbefore, hoccurs, PairTree.hasDefault_iff.mpr hoptional⟩
  · rintro ⟨before, p, after, hsplit, hbefore, hoccurs, hdefault⟩
    have hp := (PairTree.declaration?_eq_some_iff hwf hd hdef).mpr ⟨hoccurs, before, after, hsplit, hbefore⟩
    exact ⟨_, PairTree.mem_signature_iff.mpr ⟨p, hp, rfl⟩, PairTree.hasDefault_iff.mp hdefault⟩

/-- The parameter `p` comes with its default first, then twice without: in a block, and for a value in that
    block. A nested definition has a parameter of the same name. -/
def earlyDefaultSource : Source where
  name := "a.pjson"
  format := .json
  text := "!$a:\n    %p = 1\n    !$b:\n        %p\n    x:\n        %p\n        y = %p\n!d:\n    $a\n".toList

theorem earlyDefaultSource_optional : ∃ parsed resolved,
    (start none).parseAll [earlyDefaultSource] = .ok parsed ∧ parsed.resolve = .ok resolved ∧
      (resolved.set.tree.kind 1).isAliasDefinition = true ∧
      ∃ info, ("p", info) ∈ (resolved.set.tree.signature 1).parameters ∧ info.isRequired = false := by
  obtain ⟨parsed, resolved, hparse, hresolve, hcheck⟩ := exists_confirmed
    (show confirms none [earlyDefaultSource] (fun _ resolved =>
      let t := resolved.set.tree
      (t.kind 1).isAliasDefinition = true ∧ t.preorder 1 = [1] ++ 2 :: [3, 4, 5, 6, 7, 8] ∧ ¬ t.Occurs 1 "p" 1 ∧
        t.Occurs 1 "p" 2 ∧ t.HasDefault 2) = true by decide +kernel)
  obtain ⟨hdef, hsplit, hbefore, hoccurs, hdefault⟩ := hcheck
  refine ⟨parsed, resolved, hparse, hresolve, hdef, ?_⟩
  exact (optional_iff_default_first hparse hresolve hdef "p").mpr
    ⟨[1], 2, [3, 4, 5, 6, 7, 8], hsplit, fun x hx => List.mem_singleton.mp hx ▸ hbefore, hoccurs, hdefault⟩

/-- The parameter `p` is first used and then comes with its default. -/
def lateDefaultSource : Source where
  name := "a.pjson"
  format := .json
  text := "!$a:\n    x = %p\n    %p = 1\n!d:\n    $a\n".toList

/-- The signature takes `p` for a parameter without a default, and the usage that leaves it out is reported. -/
theorem lateDefaultSource_required : ∃ parsed resolved,
    (start none).parseAll [lateDefaultSource] = .ok parsed ∧ parsed.resolve = .ok resolved ∧
      (resolved.set.tree.kind 1).isAliasDefinition = true ∧
      resolved.set.tree.Occurs 1 "p" 4 ∧ resolved.set.tree.HasDefault 4 ∧
      (resolved.set.tree.signature 1).parameters = [("p", ⟨3, true, true⟩)] ∧
      resolved.collection.entries.map (·.code) = [.argumentIsMissing] :=
  exists_confirmed (by decide +kernel)

end Session

end PairMarkup
