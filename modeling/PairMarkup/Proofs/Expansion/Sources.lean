import PairMarkup.Proofs.Expansion.Hygiene
import PairMarkup.Proofs.Resolution.Completeness

namespace PairMarkup

open List

namespace PairTree

variable {t : PairTree} {limit : Nat} {document root c d x : PairId}

section

variable (hwf : t.WellFormed)

include hwf

/-- A parameter that hangs from a definition is written in one that is not around it. -/
theorem exists_enclosing_not_above (hdef : (t.kind d).isAliasDefinition) (hx : t.HangsFrom d x)
    (hparameter : (t.kind x).isParameter) : ∃ e, t.enclosingDefinition? x = some e ∧ e ∉ t.ancestors d := by
  have hne : x ≠ d := by
    rintro rfl
    exact Bool.false_ne_true ((Kind.not_definition_of_parameter hparameter).symm.trans hdef)
  obtain ⟨e, he, hhangs⟩ := enclosingDefinition?_of_hangsFrom hwf hdef hx hne
  refine ⟨e, he, fun hup => ?_⟩
  rcases hwf.hangsFrom_iff.mp hhangs with rfl | hdown
  · exact hwf.not_mem_ancestors_self _ hup
  · exact hwf.not_mem_ancestors_self _ (hwf.mem_ancestors_trans hdown hup)

/-- On the way down to a parameter there is no definition below the one that it is written in. -/
theorem plain_of_enclosed (hc : c ∈ (t.get root).held) (hx : t.HangsFrom c x) (hparameter : (t.kind x).isParameter)
    (habove : ∀ e, t.enclosingDefinition? x = some e → e ∈ root :: t.ancestors root) :
    (t.kind c).isAliasDefinition = false := by
  by_contra hdef
  rw [Bool.not_eq_false] at hdef
  obtain ⟨e, he, hnot⟩ := exists_enclosing_not_above hwf hdef hx hparameter
  apply hnot
  rw [hwf.ancestors_eq_cons (hwf.mem_held_iff.mp hc)]
  exact habove e he

theorem mem_parametersFrom_iff (hroot : root < t.size) :
    x ∈ t.parametersFrom root ↔ (t.kind root).isAliasDefinition = false ∧ (t.kind x).isParameter ∧
      t.HangsFrom root x ∧ t.enclosingDefinition? x = t.enclosingDefinition? root := by
  refine hwf.induction_down (P := fun root => x ∈ t.parametersFrom root ↔ (t.kind root).isAliasDefinition = false ∧
    (t.kind x).isParameter = true ∧ t.HangsFrom root x ∧
      t.enclosingDefinition? x = t.enclosingDefinition? root) ?_ hroot
  intro root hroot ih
  rw [hwf.acyclic.parametersFrom_eq hroot]
  cases hdef : (t.kind root).isAliasDefinition with
  | true => simp
  | false =>
    have hheld : ∀ c ∈ (t.get root).held, t.enclosingDefinition? c = t.enclosingDefinition? root := fun c hc =>
      enclosingDefinition?_held hwf hdef hc
    rw [if_neg Bool.false_ne_true, mem_append, mem_flatMap]
    constructor
    · rintro (hself | ⟨c, hc, hx⟩)
      · split at hself
        · rename_i hparameter
          obtain rfl := mem_singleton.mp hself
          exact ⟨rfl, hparameter, .refl, rfl⟩
        · cases hself
      · obtain ⟨-, hparameter, hhangs, henclosing⟩ := (ih c hc).mp hx
        exact ⟨rfl, hparameter, hhangs.head hc, henclosing.trans (hheld c hc)⟩
    · rintro ⟨-, hparameter, hhangs, henclosing⟩
      rcases hhangs.cases_head with rfl | ⟨c, hc, hhangs⟩
      · rw [if_pos hparameter]
        exact .inl (mem_singleton_self _)
      · -- If `c` were a definition, the one around `x` would be below `root`.
        refine .inr ⟨c, hc, (ih c hc).mpr ⟨?_, hparameter, hhangs, henclosing.trans (hheld c hc).symm⟩⟩
        apply plain_of_enclosed hwf hc hhangs hparameter
        intro e he
        exact mem_cons_of_mem _ (mem_of_find?_eq_some (henclosing.symm.trans he))

/-- The parameters of a definition are those that are written in it and not in one that is nested in it. -/
theorem mem_ownParameters_iff (hdef : (t.kind d).isAliasDefinition) :
    x ∈ t.ownParameters d ↔ (t.kind x).isParameter ∧ t.enclosingDefinition? x = some d := by
  have hheld : ∀ c ∈ (t.get d).held, t.enclosingDefinition? c = some d := fun c hc =>
    enclosingDefinition?_body hwf hdef hc
  rw [ownParameters_eq, mem_flatMap]
  constructor
  · rintro ⟨c, hc, hx⟩
    obtain ⟨-, hparameter, -, henclosing⟩ := (mem_parametersFrom_iff hwf (hwf.held_lt_size hc)).mp hx
    exact ⟨hparameter, henclosing.trans (hheld c hc)⟩
  · rintro ⟨hparameter, henclosing⟩
    have hhangs : t.HangsFrom d x := hwf.hangsFrom_iff.mpr (.inr (mem_of_find?_eq_some henclosing))
    rcases hhangs.cases_head with rfl | ⟨c, hc, hhangs⟩
    · exact absurd hdef (Bool.eq_false_iff.mp (Kind.not_definition_of_parameter hparameter))
    · refine ⟨c, hc, (mem_parametersFrom_iff hwf (hwf.held_lt_size hc)).mpr
        ⟨?_, hparameter, hhangs, henclosing.trans (hheld c hc).symm⟩⟩
      apply plain_of_enclosed hwf hc hhangs hparameter
      intro e he
      obtain rfl : d = e := Option.some.inj (henclosing.symm.trans he)
      exact mem_cons_self

end

variable (t) in
/-- Each call is that of the definition to which the usage is tied. -/
def Called : Surroundings → Prop
  | .document => True
  | .call d u caller => t.kind u = .aliasUsage (some d) ∧ Called caller

end PairTree

/-- What surrounds the occurrence of a call. -/
def Call.within : Call → Surroundings
  | .expand o | .value o | .refer o => o.within

namespace PairTree

variable {t : PairTree} {limit : Nat} {document d u x : PairId} {call call' : Call} {caller : Surroundings}
  {name : String}

namespace Called

variable {o : Occurrence}

theorem leave (h : t.Called o.within) (hwithin : o.within = .call d u caller) : t.Called caller := by
  rw [hwithin] at h
  exact h.2

theorem enter {within : Surroundings} (h : t.Called o.within)
    (hkind : t.kind o.pair = .aliasUsage (some d)) (hwithin : t.enter? limit o d = some within) : t.Called within := by
  obtain ⟨-, -, rfl⟩ := enter?_eq_some hwithin
  exact ⟨hkind, h⟩

theorem step (h : t.Called call.within) (hstep : t.Calls limit call call') : t.Called call'.within := by
  cases hstep with
  | replace _ hq =>
    cases replaced_of_mem hq with
    | child => exact h
    | body hkind hwithin => exact enter h hkind hwithin
    | argument _ hwithin => exact leave h hwithin
    | given _ hwithin => exact leave h hwithin
  | value => exact h
  | inside _ _ hq =>
    obtain ⟨c, -, rfl⟩ := mem_inside hq
    exact h
  | part | item | reference => exact h
  | source hq =>
    cases source_of_valueSource? hq with
    | definition hkind hwithin => exact enter h hkind hwithin
    | usage _ hwithin => exact leave h hwithin
    | argument _ hwithin => exact leave h hwithin
    | default => exact h

end Called

/-- All calls that are made for a document are those of tied usages. -/
theorem Reaches.called (h : t.Reaches limit document call) : t.Called call.within := by
  induction h with
  | refl => trivial
  | tail _ hstep ih => exact ih.step hstep

theorem isAliasDefinition_of_enclosing (h : t.enclosingDefinition? x = some d) : (t.kind d).isAliasDefinition := by
  rw [enclosingDefinition?] at h
  simpa using find?_some h

theorem isSome_argument? {a : PairId} (ha : a ∈ t.arguments u) (hname : (t.get a).name = some name) :
    (t.argument? (.call d u caller) name).isSome :=
  find?_isSome.mpr ⟨a, ha, decide_eq_true hname⟩

theorem isSome_defaultFor? (hx : x ∈ t.preorder d) (hparameter : (t.kind x).isParameter)
    (hname : (t.get x).name = some name)
    (hvalue : (t.get x).delimiter.isValue ∨ (t.get x).valueKind = .pairValue) :
    (t.defaultFor? (.call d u caller) name).isSome := by
  refine find?_isSome.mpr ⟨x, hx, ?_⟩
  rw [kind] at hparameter
  simpa [hparameter, hname] using hvalue

/-- A parameter of the definition has a source in every call that is complete, unless its name first comes with a
    default that is no value. -/
theorem Complete.sourced (hcomplete : t.Complete u d) (hwf : t.WellFormed) (hparameter : (t.kind x).isParameter)
    (henclosing : t.enclosingDefinition? x = some d) (hname : (t.get x).name = some name) :
    (t.argument? (.call d u caller) name).isSome ∨ (t.defaultFor? (.call d u caller) name).isSome ∨
      ∃ p, t.declaration? d name = some p ∧ t.lacksDefault p = false ∧
        (t.get p).delimiter.isValue = false ∧ (t.get p).valueKind ≠ .pairValue := by
  have hdef : (t.kind d).isAliasDefinition := isAliasDefinition_of_enclosing henclosing
  have hx : x ∈ t.ownParameters d := (mem_ownParameters_iff hwf hdef).mpr ⟨hparameter, henclosing⟩
  obtain ⟨p, hp⟩ : ∃ p, t.declaration? d name = some p :=
    Option.isSome_iff_exists.mp (find?_isSome.mpr ⟨x, hx, decide_eq_true hname⟩)
  cases hlacks : t.lacksDefault p with
  | true =>
    obtain ⟨a, ha, haname⟩ := hcomplete name p hp hlacks
    exact .inl (isSome_argument? ha haname)
  | false =>
    by_cases hvalue : (t.get p).delimiter.isValue = true ∨ (t.get p).valueKind = .pairValue
    · obtain ⟨hpparameter, hpenclosing⟩ := (mem_ownParameters_iff hwf hdef).mp (mem_of_find?_eq_some hp)
      have hpname : (t.get p).name = some name := name_of_declaration? hp
      have hmem : p ∈ t.preorder d := by
        rw [hwf.mem_preorder_iff (lt_size_of_definition hdef), hwf.hangsFrom_iff]
        exact .inr (mem_of_find?_eq_some hpenclosing)
      exact .inr (.inl (isSome_defaultFor? hmem hpparameter hpname hvalue))
    · rw [not_or, Bool.not_eq_true] at hvalue
      exact .inr (.inr ⟨p, hp, hlacks, hvalue⟩)

variable (t limit document) in
/-- The document has the usage `u` of `d`, and in that call the value of `x` is that of `y`. -/
def Forwards (u d x y : PairId) : Prop :=
  ((expandedKind? (t.kind document)).isSome ∧ t.valueTo limit 1 ⟨document, .document, 0⟩ = some (none, .object) ∧
      ⟨u, .document, 0⟩ ∈ t.inside ⟨document, .document, 0⟩ none) ∧
    (expandedKind? (t.kind u) = none ∧ ⟨x, .call d u .document, 1⟩ ∈ t.replacement limit ⟨u, .document, 0⟩) ∧
    (expandedKind? (t.kind x)).isSome ∧
    (t.get x).items = none ∧ (t.get x).valueKind = .pairValue ∧ t.reference? x = some y

instance {u d x y : PairId} : Decidable (t.Forwards limit document u d x y) :=
  inferInstanceAs (Decidable (_ ∧ _))

theorem Forwards.reaches {y : PairId} (h : t.Forwards limit document u d x y) :
    t.Reaches limit document (.refer ⟨y, .call d u .document, 1⟩) := by
  obtain ⟨⟨hdocument, hvalue, hinside⟩, ⟨husage, hbody⟩, helement, hitems, hkind, hreference⟩ := h
  have husages : t.Reaches limit document (.expand ⟨u, .document, 0⟩) := .single (.inside hdocument hvalue hinside)
  exact ((husages.tail (.replace husage hbody)).tail (.value helement)).tail (.reference hitems hkind hreference)

end PairTree

namespace Session

theorem findings_eq_nil {parsed resolved : Session} (hresolve : parsed.resolve = .ok resolved)
    (hclean : resolved.collection.entries = []) : (Progress.run parsed.set).findings = [] := by
  rw [(resolve_spec hresolve).2, append_eq_nil_iff, map_eq_nil_iff] at hclean
  exact hclean.2

/-- If nothing is reported, a parameter that is looked at for its value in a call has an argument or a default. Else it
    is written in a definition that is nested in the one that is called, or that one first has the name with a
    default that is no value. -/
theorem parameters_have_sources {limit : Option Nat} {sources : List Source} {parsed resolved : Session}
    (hparse : (start limit).parseAll sources = .ok parsed) (hresolve : parsed.resolve = .ok resolved)
    (hclean : resolved.collection.entries = []) (maxDepth : Nat) {m document : PairId} (hm : m ∈ resolved.set.modules)
    (hdocument : resolved.set.tree.HangsFrom m document) {o : Occurrence} {d u : PairId} {caller : Surroundings}
    {name : String} (hreach : resolved.set.tree.Reaches maxDepth document (.refer o))
    (hwithin : o.within = .call d u caller) (hparameter : (resolved.set.tree.kind o.pair).isParameter = true)
    (hname : (resolved.set.tree.get o.pair).name = some name) :
    let t := resolved.set.tree
    (t.argument? o.within name).isSome = true ∨ (t.defaultFor? o.within name).isSome = true ∨
      (∃ e, t.enclosingDefinition? o.pair = some e ∧ e ≠ d ∧ t.HangsFrom d e) ∨
      ∃ p, t.declaration? d name = some p ∧ t.lacksDefault p = false ∧
        (t.get p).delimiter.isValue = false ∧ (t.get p).valueKind ≠ .pairValue := by
  have hparsed := parsed_of_start hparse
  have hresolved : resolved.set.tree.Resolved resolved.set.modules := by
    rw [← run_tree_eq hresolve, ← modules_eq hparse hresolve]
    exact hparsed.run_resolved
  have hcalled : resolved.set.tree.Called o.within := hreach.called
  have hplaced := (hresolved.placed_of_consults ⟨m, hm, hdocument⟩ (.value hreach hparameter)).2
  rw [hwithin] at hcalled hplaced ⊢
  obtain ⟨e, henclosing, hhangs⟩ := hplaced
  by_cases hed : e = d
  · subst hed
    have hcomplete : resolved.set.tree.Complete u e := by
      rw [← run_tree_eq hresolve] at hcalled ⊢
      exact hparsed.run_complete (findings_eq_nil hresolve hclean) hcalled.1
    rcases hcomplete.sourced hresolved.wellFormed hparameter henclosing hname with hargument | hdefault | hblock
    · exact .inl hargument
    · exact .inr (.inl hdefault)
    · exact .inr (.inr (.inr hblock))
  · exact .inr (.inr (.inl ⟨e, henclosing, hed, hhangs⟩))

/-- A definition with two parameters, of which the second one has a default. The usage gives an argument for the
    first one. -/
def sourcedSource : Source where
  name := "a.pjson"
  format := .json
  text := "!$a:\n    x = %p\n    %q = 1\n    y = %q\n!d:\n    $a:\n        %p = 2\n".toList

theorem sourcedSource_parameter_has_source : ∃ parsed resolved,
    (start none).parseAll [sourcedSource] = .ok parsed ∧ parsed.resolve = .ok resolved ∧
      resolved.collection.entries = [] ∧
      resolved.set.tree.Reaches 3 7 (.refer ⟨3, .call 1 8 .document, 1⟩) ∧
      ((resolved.set.tree.argument? (.call 1 8 .document) "p").isSome = true ∨
        (resolved.set.tree.defaultFor? (.call 1 8 .document) "p").isSome = true) := by
  obtain ⟨parsed, resolved, hparse, hresolve, hcheck⟩ := exists_confirmed
    (show confirms none [sourcedSource] (fun _ resolved =>
      let t := resolved.set.tree
      resolved.collection.entries = [] ∧ (0 ∈ resolved.set.modules ∧ 7 ∈ (t.get 0).held) ∧ t.Forwards 3 7 8 1 2 3 ∧
        ((t.kind 3).isParameter = true ∧ (t.get 3).name = some "p") ∧
        t.enclosingDefinition? 3 = some 1 ∧ t.declaration? 1 "p" = some 3 ∧ t.lacksDefault 3 = true) = true by
      decide +kernel)
  obtain ⟨hclean, ⟨hm, hheld⟩, hforwards, ⟨hparameter, hname⟩, henclosing, hdeclaration, hlacks⟩ := hcheck
  refine ⟨parsed, resolved, hparse, hresolve, hclean, hforwards.reaches, ?_⟩
  rcases parameters_have_sources hparse hresolve hclean 3 hm (.single hheld) hforwards.reaches rfl hparameter hname with
    hargument | hdefault | ⟨e, he, hne, -⟩ | ⟨p, hp, hp', -⟩
  · exact .inl hargument
  · exact .inr hdefault
  · exact absurd (Option.some.inj (he.symm.trans henclosing)) hne
  · obtain rfl := Option.some.inj (hp.symm.trans hdeclaration)
    exact absurd (hlacks.symm.trans hp') Bool.noConfusion

-- Nested definitions do lose values: the default of `p` is taken from the inner definition, and its `q` has no
-- source in a call of the outer one.
example : confirms none [⟨"a.pjson", .json,
      "!$outer:\n    !$inner:\n        %p = %q\n    %p = a\n    e = %p\n!d:\n    $outer\n".toList⟩] (fun _ resolved =>
    resolved.collection.entries = [] ∧
      (resolved.set.expand 3).map (fun e => e.children.map fun c => (c.name, c.value)) = [[("e", none)]]) = true := by
  decide +kernel

/-- A definition whose parameter first comes with a block, and is then used as a value. -/
def blockDefaultSource : Source where
  name := "a.pjson"
  format := .json
  text := "!$a:\n    %p:\n        foo\n    x = %p\n!d:\n    $a\n".toList

/-- The usage gives no argument and nothing is reported, but the value of `x` gets lost: the block counts as a default
    when the usage is checked, and is no value when it is expanded. -/
theorem blockDefaultSource_no_source : ∃ parsed resolved,
    (start none).parseAll [blockDefaultSource] = .ok parsed ∧ parsed.resolve = .ok resolved ∧
      resolved.collection.entries = [] ∧
      resolved.set.tree.Reaches 3 6 (.refer ⟨5, .call 1 7 .document, 1⟩) ∧
      (resolved.set.tree.kind 5).isParameter = true ∧ (resolved.set.tree.get 5).name = some "p" ∧
      resolved.set.tree.argument? (.call 1 7 .document) "p" = none ∧
      resolved.set.tree.defaultFor? (.call 1 7 .document) "p" = none ∧
      (resolved.set.expand 3).map (fun e => e.children.map fun c => (c.name, c.value)) =
        [[("foo", none), ("x", none)]] := by
  obtain ⟨parsed, resolved, hparse, hresolve, hcheck⟩ := exists_confirmed
    (show confirms none [blockDefaultSource] (fun _ resolved =>
      let t := resolved.set.tree
      let call := Surroundings.call 1 7 .document
      resolved.collection.entries = [] ∧ t.Forwards 3 6 7 1 4 5 ∧
        (t.kind 5).isParameter = true ∧ (t.get 5).name = some "p" ∧ t.argument? call "p" = none ∧
        t.defaultFor? call "p" = none ∧
        (resolved.set.expand 3).map (fun e => e.children.map fun c => (c.name, c.value)) =
          [[("foo", none), ("x", none)]]) = true by decide +kernel)
  obtain ⟨hclean, hforwards, hlost⟩ := hcheck
  exact ⟨parsed, resolved, hparse, hresolve, hclean, hforwards.reaches, hlost⟩

end Session

end PairMarkup
