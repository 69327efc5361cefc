import PairMarkup.Proofs.Expansion.Termination
import PairMarkup.Proofs.Resolution.Chains
import PairMarkup.Proofs.Resolution.Parameters
import PairMarkup.Proofs.Tree.Rooted

namespace PairMarkup

open Kind

namespace PairTree

variable {within : Surroundings} {o : Occurrence} {x c d : PairId}

section

variable (t : PairTree) (limit : Nat) (document : PairId)

/-- The calls that are made when the document is expanded. -/
def Reaches (call : Call) : Prop := Relation.ReflTransGen (t.Calls limit) (.expand ⟨document, .document, 0⟩) call

/-- In the given surroundings, the value of a parameter is taken from the default `x`. -/
def TakesDefault (within : Surroundings) (x : PairId) : Prop :=
  ∃ o name, t.Reaches limit document (.refer o) ∧ o.within = within ∧
    (t.kind o.pair).isParameter = true ∧ (t.get o.pair).name = some name ∧
    t.argument? within name = none ∧ t.defaultFor? within name = some x

/-- The parameters that are looked at in the given surroundings: those that are replaced by a
    block or a value, and the defaults that values are taken from. -/
inductive Consults : Surroundings → PairId → Prop
  | block {o : Occurrence} : t.Reaches limit document (.expand o) →
      (t.kind o.pair).isParameter = true → Consults o.within o.pair
  | value {o : Occurrence} : t.Reaches limit document (.refer o) →
      (t.kind o.pair).isParameter = true → Consults o.within o.pair
  | default {within : Surroundings} {x : PairId} : t.TakesDefault limit document within x →
      Consults within x

/-- In a call of the definition `d`, the definition around the pair stands in a certain
    relation to `d`. Outside of calls it is the one around the document. -/
def Placed (R : PairId → PairId → Prop) : Surroundings → PairId → Prop
  | .document, x => t.enclosingDefinition? x = t.enclosingDefinition? document
  | .call d _ _, x => ∃ e, t.enclosingDefinition? x = some e ∧ R d e

/-- The calls are those of definitions by usages, each usage in its place. -/
def Surrounded (modules : List PairId) (R : PairId → PairId → Prop) : Surroundings → Prop
  | .document => True
  | .call d u caller => (t.kind d).isAliasDefinition = true ∧ t.Rooted modules d ∧
      (t.kind u).isAliasUsage = true ∧ t.Rooted modules u ∧ t.Placed document R caller u ∧
      Surrounded modules R caller

structure Fits (modules : List PairId) (R : PairId → PairId → Prop) (o : Occurrence) : Prop where
  rooted : t.Rooted modules o.pair
  placed : t.Placed document R o.within o.pair
  surrounded : t.Surrounded document modules R o.within

/-- The value of a definition is asked for in its own call, so for values it is what the pair
    holds that has a place. -/
def FitsCall (modules : List PairId) (R : PairId → PairId → Prop) : Call → Prop
  | .expand o | .refer o => t.Fits document modules R o
  | .value o => t.Surrounded document modules R o.within ∧
      ∀ c ∈ (t.get o.pair).held, t.Fits document modules R { o with pair := c }

end

variable {t : PairTree} {limit : Nat} {document : PairId} {modules : List PairId}
  {R : PairId → PairId → Prop}

/-- Defaults are taken in calls, from what hangs from the definition. -/
theorem TakesDefault.call (h : t.TakesDefault limit document within x) :
    ∃ d u caller, within = .call d u caller ∧ x ∈ t.preorder d ∧ (t.kind x).isParameter := by
  obtain ⟨_, _, -, -, -, -, -, hdefault⟩ := h
  obtain ⟨d, hd, hx, hparameter, -⟩ := defaultFor?_spec hdefault
  cases within with
  | document => cases hd
  | call d' u caller =>
    cases hd
    exact ⟨_, u, caller, rfl, hx, hparameter⟩

section

variable (hwf : t.WellFormed)

include hwf

theorem enclosingDefinition?_held (hplain : (t.kind x).isAliasDefinition = false) (hc : c ∈ (t.get x).held) :
    t.enclosingDefinition? c = t.enclosingDefinition? x := by
  rw [hwf.enclosingDefinition?_of_parent (hwf.mem_held_iff.mp hc), hplain]
  rfl

theorem enclosingDefinition?_body (hdef : (t.kind d).isAliasDefinition) (hc : c ∈ (t.get d).held) :
    t.enclosingDefinition? c = some d := by
  rw [hwf.enclosingDefinition?_of_parent (hwf.mem_held_iff.mp hc), if_pos hdef]

/-- Whatever hangs from a definition is written in it or in one nested in it. -/
theorem enclosingDefinition?_of_hangsFrom (hdef : (t.kind d).isAliasDefinition) (hx : t.HangsFrom d x)
    (hne : x ≠ d) : ∃ e, t.enclosingDefinition? x = some e ∧ t.HangsFrom d e := by
  induction hx with
  | refl => exact absurd rfl hne
  | @tail y x hy hx ih =>
    by_cases hydef : (t.kind y).isAliasDefinition = true
    · exact ⟨y, enclosingDefinition?_body hwf hydef hx, hy⟩
    · rw [Bool.not_eq_true] at hydef
      rw [enclosingDefinition?_held hwf hydef hx]
      refine ih ?_
      rintro rfl
      rw [hdef] at hydef
      cases hydef

theorem Placed.held (h : t.Placed document R within x) (hplain : (t.kind x).isAliasDefinition = false)
    (hc : c ∈ (t.get x).held) : t.Placed document R within c := by
  have henclosing := enclosingDefinition?_held hwf hplain hc
  cases within with
  | document => exact henclosing.trans h
  | call d u caller =>
    obtain ⟨e, he, hR⟩ := h
    exact ⟨e, henclosing.trans he, hR⟩

theorem Fits.held (h : t.Fits document modules R o) (hplain : (t.kind o.pair).isAliasDefinition = false)
    (hc : c ∈ (t.get o.pair).held) : t.Fits document modules R { o with pair := c } :=
  ⟨h.rooted.held hc, h.placed.held hwf hplain hc, h.surrounded⟩

theorem Fits.value (h : t.Fits document modules R o) (hplain : (t.kind o.pair).isAliasDefinition = false) :
    t.FitsCall document modules R (.value o) :=
  ⟨h.surrounded, fun _ hc => h.held hwf hplain hc⟩

omit hwf in
theorem Surrounded.usage {u : PairId} {caller : Surroundings} (n : Nat)
    (h : t.Surrounded document modules R (.call d u caller)) : t.Fits document modules R ⟨u, caller, n⟩ :=
  ⟨h.2.2.2.1, h.2.2.2.2.1, h.2.2.2.2.2⟩

omit hwf in
theorem mem_children_of_argument {u argument : PairId} (h : argument ∈ t.arguments u) :
    argument ∈ t.children u ∧ (t.kind argument).isAliasDefinition = false := by
  obtain ⟨hcontent, hkind⟩ := List.mem_filter.mp h
  refine ⟨(List.mem_filter.mp hcontent).1, ?_⟩
  cases hk : t.kind argument <;> simp [hk, isArgument] at hkind
  rfl

theorem Surrounded.argument {u argument : PairId} {caller : Surroundings} (n : Nat)
    (h : t.Surrounded document modules R (.call d u caller)) (hargument : argument ∈ t.arguments u) :
    t.Fits document modules R ⟨argument, caller, n⟩ :=
  (h.usage n).held hwf (isAliasDefinition_of_usage h.2.2.1)
    (mem_held_of_mem_children (mem_children_of_argument hargument).1)

variable (hrefl : ∀ d, R d d)
  (htied : ∀ u d, t.Rooted modules u → t.kind u = .aliasUsage (some d) → t.Rooted modules d)

include hrefl htied

theorem Fits.body (h : t.Fits document modules R o) (hkind : t.kind o.pair = .aliasUsage (some d))
    (hwithin : t.enter? limit o d = some within) (n : Nat) (hc : c ∈ (t.get d).held) :
    t.Fits document modules R ⟨c, within, n⟩ := by
  obtain ⟨hdef, -, rfl⟩ := enter?_eq_some hwithin
  have hd := htied o.pair d h.rooted hkind
  refine ⟨hd.held hc, ⟨d, enclosingDefinition?_body hwf hdef hc, hrefl d⟩, hdef, hd, ?_, h.rooted, h.placed,
    h.surrounded⟩
  rw [hkind]
  rfl

variable (hdefaults : ∀ within x, t.TakesDefault limit document within x →
  t.Surrounded document modules R within → t.Placed document R within x)

include hdefaults

omit hrefl htied in
theorem TakesDefault.fits (n : Nat) (h : t.TakesDefault limit document within x)
    (hsurrounded : t.Surrounded document modules R within) :
    t.Fits document modules R ⟨x, within, n⟩ ∧ (t.kind x).isParameter := by
  have hplaced := hdefaults within x h hsurrounded
  obtain ⟨d, u, caller, rfl, hx, hparameter⟩ := h.call
  have hhangs := (hwf.mem_preorder_iff (lt_size_of_definition hsurrounded.1)).mp hx
  exact ⟨⟨hsurrounded.2.1.trans hhangs, hplaced, hsurrounded⟩, hparameter⟩

theorem FitsCall.source {q : Occurrence} (hreach : t.Reaches limit document (.refer o))
    (h : t.Fits document modules R o) (hq : t.Source limit o q) : t.FitsCall document modules R (.value q) := by
  cases hq with
  | @definition d within hkind hwithin =>
    obtain ⟨hdef, -, rfl⟩ := enter?_eq_some hwithin
    have husage : (t.kind o.pair).isAliasUsage := by rw [hkind]; rfl
    refine ⟨⟨hdef, htied o.pair d h.rooted hkind, husage, h.rooted, h.placed, h.surrounded⟩, fun c hc => ?_⟩
    exact h.body hwf hrefl htied hkind hwithin (o.depth + 1) hc
  | usage hparameter hwithin =>
    have hsurrounded := hwithin ▸ h.surrounded
    exact (hsurrounded.usage o.depth).value hwf (isAliasDefinition_of_usage hsurrounded.2.2.1)
  | argument hparameter hwithin hargument =>
    have hsurrounded := hwithin ▸ h.surrounded
    exact (hsurrounded.argument hwf o.depth hargument).value hwf (mem_children_of_argument hargument).2
  | @default name x hparameter hname hargument hdefault =>
    have htakes : t.TakesDefault limit document o.within x :=
      ⟨o, name, hreach, rfl, hparameter, hname, hargument, hdefault⟩
    obtain ⟨hfits, hkind⟩ := htakes.fits hwf hdefaults o.depth h.surrounded
    exact hfits.value hwf (not_definition_of_parameter hkind)

theorem FitsCall.step {c c' : Call} (hreach : t.Reaches limit document c)
    (h : t.FitsCall document modules R c) (hstep : t.Calls limit c c') :
    t.FitsCall document modules R c' := by
  have hkept : ∀ {kind : Kind}, (expandedKind? kind).isSome → kind.isAliasDefinition = false := by
    intro kind hkind
    cases kind <;> first | rfl | cases hkind
  cases hstep with
  | @replace o q hkind hq =>
    have hfits : t.Fits document modules R o := h
    cases replaced_of_mem hq with
    | child hplain hc => exact hfits.held hwf hplain (mem_held_of_mem_children hc)
    | body hkind hwithin hc =>
      exact hfits.body hwf hrefl htied hkind hwithin _ (mem_held_of_mem_children hc)
    | argument hparameter hwithin hargument hc =>
      have hsurrounded := hwithin ▸ hfits.surrounded
      exact (hsurrounded.argument hwf o.depth hargument).held hwf (mem_children_of_argument hargument).2
        (mem_held_of_mem_children hc)
    | given hparameter hwithin hc =>
      have hsurrounded := hwithin ▸ hfits.surrounded
      exact (hsurrounded.usage o.depth).held hwf (isAliasDefinition_of_usage hsurrounded.2.2.1)
        (mem_held_of_mem_children hc)
  | value hkind => exact Fits.value hwf h (hkept hkind)
  | inside hkind _ hq =>
    obtain ⟨c, hc, rfl⟩ := mem_inside hq
    exact Fits.held hwf h (hkept hkind) (mem_held_of_mem_children hc)
  | @part o items item hitems hitem helement =>
    have hfits := h.2 item (List.mem_append_right _ (by rwa [hitems]))
    refine hfits.value hwf ?_
    cases hkind : t.kind item <;> first | rfl | simp [hkind, isElement] at helement
  | item hitems hitem _ => exact h.2 _ (List.mem_append_right _ (by rwa [hitems]))
  | reference _ _ hreference => exact h.2 _ (mem_held_of_mem_children (reference?_mem hreference))
  | source hq => exact FitsCall.source hwf hrefl htied hdefaults hreach h (source_of_valueSource? hq)

theorem Reaches.fitsCall {c : Call} (hdocument : t.Rooted modules document)
    (h : t.Reaches limit document c) : t.FitsCall document modules R c := by
  induction h with
  | refl => exact ⟨hdocument, rfl, trivial⟩
  | tail hreach hstep ih => exact FitsCall.step hwf hrefl htied hdefaults hreach ih hstep

/-- So the parameters that are looked at are in their places. -/
theorem Consults.fits (hdocument : t.Rooted modules document) (h : t.Consults limit document within x) :
    (∃ n, t.Fits document modules R ⟨x, within, n⟩) ∧ (t.kind x).isParameter := by
  cases h with
  | @block o hreach hparameter =>
    exact ⟨⟨o.depth, hreach.fitsCall hwf hrefl htied hdefaults hdocument⟩, hparameter⟩
  | @value o hreach hparameter =>
    exact ⟨⟨o.depth, hreach.fitsCall hwf hrefl htied hdefaults hdocument⟩, hparameter⟩
  | default htakes =>
    obtain ⟨o, name, hreach, hwithin, -⟩ := id htakes
    have hfits : t.Fits document modules R o := hreach.fitsCall hwf hrefl htied hdefaults hdocument
    obtain ⟨hdefault, hparameter⟩ := htakes.fits hwf hdefaults o.depth (hwithin ▸ hfits.surrounded)
    exact ⟨⟨o.depth, hdefault⟩, hparameter⟩

end

/-- Parameters are bound by place, and usages to definitions below modules. -/
structure Resolved (t : PairTree) (modules : List PairId) : Prop where
  wellFormed : t.WellFormed
  bound : ∀ x, t.Rooted modules x → (t.kind x).isParameter = true →
    (t.kind x).binding? = some (t.enclosingDefinition? x)
  tied : ∀ u d, t.Rooted modules u → t.kind u = .aliasUsage (some d) → t.Rooted modules d

namespace Resolved

variable (h : t.Resolved modules) (hdocument : t.Rooted modules document)

include h hdocument

/-- A parameter that is looked at is bound to the definition that it is written in, and that
    is the definition that is expanded or one nested in it. -/
theorem placed_of_consults {within : Surroundings} {x : PairId} (hx : t.Consults limit document within x) :
    (t.kind x).binding? = some (t.enclosingDefinition? x) ∧ t.Placed document t.HangsFrom within x := by
  have hdefaults : ∀ within x, t.TakesDefault limit document within x →
      t.Surrounded document modules t.HangsFrom within → t.Placed document t.HangsFrom within x := by
    intro within x htakes hsurrounded
    obtain ⟨d, u, caller, rfl, hmem, hparameter⟩ := htakes.call
    have hdef := hsurrounded.1
    have hhangs := (h.wellFormed.mem_preorder_iff (lt_size_of_definition hdef)).mp hmem
    refine enclosingDefinition?_of_hangsFrom h.wellFormed hdef hhangs ?_
    rintro rfl
    rw [not_definition_of_parameter hparameter] at hdef
    cases hdef
  obtain ⟨⟨n, hfits⟩, hparameter⟩ := hx.fits h.wellFormed (fun _ => .refl) h.tied hdefaults hdocument
  exact ⟨h.bound x hfits.rooted hparameter, hfits.placed⟩

/-- It is bound to that definition itself if all defaults are written in the definition
    that they are taken for. -/
theorem binding?_of_consults (hdirect : ∀ within x, t.TakesDefault limit document within x →
      t.enclosingDefinition? x = within.definition?)
    {within : Surroundings} {x : PairId} (hx : t.Consults limit document within x) :
    (t.kind x).binding? =
      some (if within = .document then t.enclosingDefinition? document else within.definition?) := by
  have hdefaults : ∀ within x, t.TakesDefault limit document within x →
      t.Surrounded document modules Eq within → t.Placed document Eq within x := by
    intro within x htakes _
    have henclosing := hdirect within x htakes
    obtain ⟨d, u, caller, rfl, -⟩ := htakes.call
    exact ⟨d, henclosing, rfl⟩
  obtain ⟨⟨n, hfits⟩, hparameter⟩ := hx.fits h.wellFormed (fun _ => rfl) h.tied hdefaults hdocument
  have hplaced := hfits.placed
  rw [h.bound x hfits.rooted hparameter]
  cases within with
  | document => exact congrArg some hplaced
  | call d u caller =>
    obtain ⟨e, he, rfl⟩ := hplaced
    exact congrArg some he

end Resolved

end PairTree

theorem ModuleSet.Parsed.run_resolved {set : ModuleSet} (hset : set.Parsed) :
    (Progress.run set).tree.Resolved set.modules where
  wellFormed := hset.run_tracked.covered.wellFormed
  bound x hx hparameter := by
    obtain ⟨m, hm, hx⟩ := hx
    exact hset.run_binding? hm hx hparameter
  tied u d hu hkind := by
    obtain ⟨m, hm, hhangs⟩ := id hu
    have hbound := (hset.run_boundTo hm hhangs (by rw [hkind]; rfl)).kind_eq
    rw [hkind] at hbound
    exact hset.run_tracked.covered.toOwned.rooted_of_lexical? hu (aliasUsage.inj hbound).symm

namespace Session

/-- While a document is expanded, every parameter that is looked at in a call of a definition
    is bound to that definition or to one nested in it. All of them are bound to the very
    definition just if every default that is taken is written in the definition it is taken
    for, and the document is in no definition if parameters are looked at outside of calls. -/
theorem parameters_keep_to_their_definitions_iff {limit : Option Nat} {sources : List Source}
    {parsed resolved : Session} (hparse : (start limit).parseAll sources = .ok parsed)
    (hresolve : parsed.resolve = .ok resolved) (maxDepth : Nat) {m document : PairId}
    (hm : m ∈ resolved.set.modules) (hdocument : resolved.set.tree.HangsFrom m document) :
    let t := resolved.set.tree
    ((∀ within x, t.Consults maxDepth document within x → (t.kind x).binding? = some within.definition?) ↔
      (∀ within x, t.TakesDefault maxDepth document within x → t.enclosingDefinition? x = within.definition?) ∧
      ∀ x, t.Consults maxDepth document .document x → t.enclosingDefinition? document = none) ∧
    (∀ x, t.Consults maxDepth document .document x → (t.kind x).binding? = some (t.enclosingDefinition? document)) ∧
    ∀ d u caller x, t.Consults maxDepth document (.call d u caller) x →
      ∃ e, (t.kind x).binding? = some (some e) ∧ t.HangsFrom d e := by
  have hparsed := parsed_of_start hparse
  have hresolved : resolved.set.tree.Resolved resolved.set.modules := by
    rw [← run_tree_eq hresolve, ← modules_eq hparse hresolve]
    exact hparsed.run_resolved
  have hrooted : resolved.set.tree.Rooted resolved.set.modules document := ⟨m, hm, hdocument⟩
  have hplaced : ∀ within x, resolved.set.tree.Consults maxDepth document within x →
      (resolved.set.tree.kind x).binding? = some (resolved.set.tree.enclosingDefinition? x) ∧
        resolved.set.tree.Placed document resolved.set.tree.HangsFrom within x :=
    fun _ _ => hresolved.placed_of_consults hrooted
  have houtside : ∀ x, resolved.set.tree.Consults maxDepth document .document x →
      (resolved.set.tree.kind x).binding? = some (resolved.set.tree.enclosingDefinition? document) := by
    intro x hx
    obtain ⟨hbinding, hx⟩ := hplaced .document x hx
    rw [hbinding, hx]
  refine ⟨⟨fun hbound => ⟨fun within x htakes => ?_, fun x hx => ?_⟩, fun ⟨hdirect, hnone⟩ within x hx => ?_⟩,
    houtside, fun d u caller x hx => ?_⟩
  · have hx := PairTree.Consults.default htakes
    have hbinding := hbound within x hx
    rw [(hplaced within x hx).1] at hbinding
    exact Option.some.inj hbinding
  · have hx' := houtside x hx
    rw [hbound .document x hx] at hx'
    exact (Option.some.inj hx').symm
  · rw [hresolved.binding?_of_consults hrooted hdirect hx]
    cases within with
    | document => exact congrArg some (hnone x hx)
    | call d u caller => rfl
  · obtain ⟨hbinding, e, he, hhangs⟩ := hplaced _ x hx
    exact ⟨e, hbinding.trans (congrArg some he), hhangs⟩

/-- A definition and another one nested in it, each with a default for its parameter `p`. The
    document has a usage of the outer one. -/
def nestedDefaultSource : Source where
  name := "a.pjson"
  format := .json
  text := "!$outer:\n    !$inner:\n        %p = b\n    %p = a\n    e = %p\n!d:\n    $outer\n".toList

theorem nestedDefaultSource_parameters_nested : ∃ parsed resolved,
    (start none).parseAll [nestedDefaultSource] = .ok parsed ∧ parsed.resolve = .ok resolved ∧
      0 ∈ resolved.set.modules ∧ resolved.set.tree.HangsFrom 0 7 ∧
      ∀ d u caller x, resolved.set.tree.Consults 3 7 (.call d u caller) x →
        ∃ e, (resolved.set.tree.kind x).binding? = some (some e) ∧ resolved.set.tree.HangsFrom d e := by
  obtain ⟨parsed, resolved, hparse, hresolve, hcheck⟩ := exists_confirmed
    (show confirms none [nestedDefaultSource] (fun _ resolved =>
      0 ∈ resolved.set.modules ∧ 7 ∈ (resolved.set.tree.get 0).held) = true by decide +kernel)
  obtain ⟨hm, hheld⟩ := hcheck
  exact ⟨parsed, resolved, hparse, hresolve, hm, .single hheld,
    (parameters_keep_to_their_definitions_iff hparse hresolve 3 hm (.single hheld)).2.2⟩

/-- When the usage is expanded, the value of `p` is taken from the nested default, which
    is bound to the inner definition. -/
theorem nestedDefaultSource_default_of_another : ∃ parsed resolved,
    (start none).parseAll [nestedDefaultSource] = .ok parsed ∧ parsed.resolve = .ok resolved ∧
      resolved.collection.entries = [] ∧
      resolved.set.tree.TakesDefault 3 7 (.call 1 8 .document) 3 ∧
      (resolved.set.tree.kind 3).binding? = some (some 2) ∧
      (resolved.set.expand 3).map (fun e => e.children.map fun c => (c.name, c.value)) = [[("e", some "b")]] := by
  obtain ⟨parsed, resolved, hparse, hresolve, hcheck⟩ := exists_of_confirms
    (show confirms none [nestedDefaultSource] (fun _ resolved =>
      let t := resolved.set.tree
      let call := Surroundings.call 1 8 .document
      resolved.collection.entries = [] ∧ ((PairTree.expandedKind? (t.kind 7)).isSome ∧
          t.valueTo 3 1 ⟨7, .document, 0⟩ = some (none, .object) ∧
          ⟨8, .document, 0⟩ ∈ t.inside ⟨7, .document, 0⟩ none) ∧
        (PairTree.expandedKind? (t.kind 8) = none ∧ ⟨5, call, 1⟩ ∈ t.replacement 3 ⟨8, .document, 0⟩) ∧
        (PairTree.expandedKind? (t.kind 5)).isSome ∧
        ((t.get 5).items = none ∧ (t.get 5).valueKind = .pairValue ∧ t.reference? 5 = some 6) ∧
        ((t.kind 6).isParameter = true ∧ (t.get 6).name = some "p" ∧ t.argument? call "p" = none ∧
          t.defaultFor? call "p" = some 3) ∧
        (t.kind 3).binding? = some (some 2) ∧
        (resolved.set.expand 3).map (fun e => e.children.map fun c => (c.name, c.value)) =
          [[("e", some "b")]]) = true by decide +kernel)
  obtain ⟨hentries, ⟨hdocument, hvalue, hinside⟩, ⟨husage, hbody⟩, helement, ⟨hitems, hkind, href⟩,
    ⟨hparameter, hname, hargument, hdefault⟩, hbinding, hexpand⟩ := of_decide_eq_true hcheck
  have hreach : resolved.set.tree.Reaches 3 7 (.refer ⟨6, .call 1 8 .document, 1⟩) :=
    ((((Relation.ReflTransGen.refl.tail (.inside hdocument hvalue hinside)).tail
      (.replace husage hbody)).tail (.value helement)).tail (.reference hitems hkind href))
  exact ⟨parsed, resolved, hparse, hresolve, hentries,
    ⟨_, "p", hreach, rfl, hparameter, hname, hargument, hdefault⟩, hbinding, hexpand⟩

end Session

end PairMarkup
