import PairMarkup.Proofs.Expansion.Calls
import PairMarkup.Proofs.Tree.Renumbering

namespace PairMarkup

open List Kind

def Surroundings.renumber (φ : PairId → PairId) : Surroundings → Surroundings
  | document => document
  | call definition usage caller => call (φ definition) (φ usage) (caller.renumber φ)

def Occurrence.renumber (φ : PairId → PairId) (o : Occurrence) : Occurrence :=
  ⟨φ o.pair, o.within.renumber φ, o.depth⟩

namespace Surroundings

variable (φ : PairId → PairId) (within : Surroundings)

@[simp] theorem definition?_renumber : (within.renumber φ).definition? = within.definition?.map φ := by
  cases within <;> rfl

@[simp] theorem usage?_renumber : (within.renumber φ).usage? = within.usage?.map φ := by
  cases within <;> rfl

@[simp] theorem caller_renumber : (within.renumber φ).caller = within.caller.renumber φ := by
  cases within <;> rfl

end Surroundings

theorem Pair.definitionInfo?_eq_none {pair : Pair} (h : ¬ pair.kind.isAliasDefinition) :
    pair.definitionInfo? = none := by
  cases hkind : pair.kind <;> simp_all [definitionInfo?, isAliasDefinition]

namespace PairTree.Renumbers

open Occurrence

variable {φ : Equiv.Perm PairId} {t t' : PairTree} (h : t.Renumbers φ t') (limit : Nat) (within : Surroundings)
  (name : String) (n : Nat) (x : PairId) (o : Occurrence)

include h

theorem contentChildren_eq : t'.contentChildren (φ x) = (t.contentChildren x).map φ := by
  rw [contentChildren, h.children_eq, filter_map, contentChildren]
  refine congrArg (fun p => (List.filter p (t.children x)).map φ) (funext fun c => ?_)
  exact congrArg (!·) (h.flag_eq isComment_shape c)

theorem arguments_eq (usage : PairId) : t'.arguments (φ usage) = (t.arguments usage).map φ := by
  rw [arguments, h.contentChildren_eq, filter_map, arguments]
  exact congrArg (fun p => (List.filter p (t.contentChildren usage)).map φ)
    (funext fun c => h.flag_eq isArgument_shape c)

theorem name_eq : (t'.get (φ x)).name = (t.get x).name := h.eq_of_keeps Pair.name (fun _ => rfl) (fun _ => rfl) x

theorem valueKind_eq : (t'.get (φ x)).valueKind = (t.get x).valueKind :=
  h.eq_of_keeps Pair.valueKind (fun _ => rfl) (fun _ => rfl) x

theorem argument?_eq : t'.argument? (within.renumber φ) name = (t.argument? within name).map φ := by
  rw [argument?, argument?, Surroundings.usage?_renumber]
  cases within.usage? with
  | none => rfl
  | some usage =>
    simp only [Option.map_some, h.arguments_eq, find?_map]
    exact congrArg (fun p => (List.find? p (t.arguments usage)).map φ)
      (funext fun id => congrArg (fun n => decide (n = some name)) (h.name_eq id))

theorem preorderTo_eq : t'.preorderTo n (φ x) = (t.preorderTo n x).map φ := by
  induction n generalizing x with
  | zero => rfl
  | succ n ih =>
    simp only [preorderTo, h.held_eq, flatMap_map, ih, map_cons, map_flatMap]

theorem defaultFor?_eq : t'.defaultFor? (within.renumber φ) name = (t.defaultFor? within name).map φ := by
  rw [defaultFor?, defaultFor?, Surroundings.definition?_renumber]
  cases within.definition? with
  | none => rfl
  | some definition =>
    simp only [Option.map_some, preorder, h.size_eq, h.preorderTo_eq, find?_map]
    refine congrArg (fun p => (List.find? p (t.preorderTo t.size definition)).map φ) (funext fun id => ?_)
    have hkind : (t'.get (φ id)).kind.isParameter = (t.get id).kind.isParameter := h.flag_eq isParameter_shape id
    have hdelimiter := h.eq_of_keeps Pair.delimiter (fun _ => rfl) (fun _ => rfl) id
    simp only [Function.comp_apply, hkind, h.name_eq, hdelimiter, h.valueKind_eq]

theorem enter?_eq (definition : PairId) :
    t'.enter? limit (o.renumber φ) definition = (t.enter? limit o definition).map (Surroundings.renumber φ) := by
  have hmark : ((t'.get (φ definition)).definitionInfo?.map (·.isCircular)) =
      (t.get definition).definitionInfo?.map (·.isCircular) := by
    refine h.eq_of_keeps (fun pair => pair.definitionInfo?.map (·.isCircular)) (fun pair => ?_) (fun _ => rfl) _
    cases hkind : pair.kind <;> simp [Pair.definitionInfo?, Pair.plain, plain, hkind]
  by_cases hdef : (t.kind definition).isAliasDefinition = true
  · have hfixed : φ definition = definition := h.fixed rfl hdef
    rw [hfixed] at hmark
    rw [enter?, enter?]
    cases hinfo : (t.get definition).definitionInfo? with
    | none =>
      rw [hinfo, Option.map_none, Option.map_eq_none_iff] at hmark
      rw [hmark]
      rfl
    | some info =>
      rw [hinfo, Option.map_some, Option.map_eq_some_iff] at hmark
      obtain ⟨info', hinfo', hcircular⟩ := hmark
      simp only [hinfo', hcircular]
      by_cases hstop : (info.isCircular || decide (limit ≤ o.depth)) = true
      · rw [if_pos hstop]
        exact if_pos hstop
      · rw [if_neg hstop, Option.map_some, Surroundings.renumber, hfixed]
        exact if_neg hstop
  · have hdef' : ¬ (t'.kind definition).isAliasDefinition := by
      rwa [h.flag_eq_self (f := isAliasDefinition) rfl isAliasDefinition_shape]
    rw [enter?, enter?, Pair.definitionInfo?_eq_none hdef, Pair.definitionInfo?_eq_none hdef']
    rfl

theorem fixed_of_enter? {o : Occurrence} {definition : PairId} {within : Surroundings}
    (henter : t.enter? limit o definition = some within) : φ definition = definition :=
  h.fixed (f := isAliasDefinition) rfl (enter?_eq_some henter).1

theorem valueSource?_eq : t'.valueSource? limit (o.renumber φ) = (t.valueSource? limit o).map (renumber φ) := by
  have hpair : (o.renumber φ).pair = φ o.pair := rfl
  obtain heq | ⟨_, _, _, heq', heq⟩ | ⟨_, _, heq', heq, -⟩ := eq_or_of_plain (h.kind_eq o.pair)
  · rw [valueSource?, valueSource?, hpair, heq]
    cases t.kind o.pair with
    | aliasUsage definition =>
      cases definition with
      | none => rfl
      | some definition =>
        simp only [h.enter?_eq]
        cases hin : t.enter? limit o definition with
        | none => rfl
        | some within => simp [renumber, h.fixed_of_enter? limit hin]
    | parameter definition place =>
      simp only [h.name_eq]
      cases (t.get o.pair).name with
      | none =>
        simp only [renumber, Surroundings.usage?_renumber]
        cases o.within.usage? <;> simp [renumber]
      | some name =>
        simp only [renumber, h.argument?_eq, h.defaultFor?_eq]
        cases t.argument? o.within name with
        | some argument => simp [renumber]
        | none =>
          cases t.defaultFor? o.within name <;> simp [renumber]
    | _ => rfl
  · rw [valueSource?, valueSource?, hpair, heq, heq']
    rfl
  · rw [valueSource?, valueSource?, hpair, heq, heq']
    rfl

theorem reference?_eq : t'.reference? (φ x) = (t.reference? x).map φ := by
  rw [reference?, h.children_eq, find?_map, reference?]
  refine congrArg (fun p => (List.find? p (t.children x)).map φ) (funext fun c => ?_)
  simp only [Function.comp_apply, h.flag_eq isAliasUsage_shape, h.flag_eq isParameter_shape]

theorem valueTo_eq : t'.valueTo limit n (o.renumber φ) = t.valueTo limit n o := by
  induction n generalizing o with
  | zero => rfl
  | succ n ih =>
    have hfollowed : ∀ source : Option Occurrence, followed (t'.valueTo limit n)
        (source.map (renumber φ)) = followed (t.valueTo limit n) source := by
      intro source
      cases source with
      | none => rfl
      | some source => exact ih source
    have hsource : ∀ part, t'.valueSource? limit { o.renumber φ with pair := φ part } =
        (t.valueSource? limit { o with pair := part }).map (renumber φ) := fun part =>
      h.valueSource?_eq limit { o with pair := part }
    have hitems : (t'.get (o.renumber φ).pair).items = (t.get o.pair).items.map (List.map φ) := h.items_eq o.pair
    have hkind : (t'.get (o.renumber φ).pair).valueKind = (t.get o.pair).valueKind := h.valueKind_eq o.pair
    cases hparts : (t.get o.pair).items with
    | some items =>
      rw [hparts, Option.map_some] at hitems
      rw [valueTo_of_items hparts, valueTo_of_items hitems, mapM_map]
      refine congrArg (fun ask => Option.map _ (List.mapM ask items)) (funext fun item => ?_)
      have hpart : t'.valueTo limit n { o.renumber φ with pair := φ item } =
        t.valueTo limit n { o with pair := item } := ih { o with pair := item }
      simp only [Function.comp_apply, h.flag_eq isElement_shape, hpart, hsource, hfollowed]
    | none =>
      rw [hparts, Option.map_none] at hitems
      by_cases hpair : (t.get o.pair).valueKind = .pairValue
      · rw [valueTo_of_pairValue hparts hpair, valueTo_of_pairValue hitems (hkind.trans hpair), ← hfollowed]
        refine congrArg (followed (t'.valueTo limit n)) ?_
        rw [show t'.reference? (o.renumber φ).pair = _ from h.reference?_eq o.pair]
        cases t.reference? o.pair with
        | none => rfl
        | some reference => exact hsource reference
      · have hvalue : (t'.get (o.renumber φ).pair).value = (t.get o.pair).value :=
          h.eq_of_keeps Pair.value (fun _ => rfl) (fun _ => rfl) o.pair
        rw [valueTo_of_plain hparts hpair, valueTo_of_plain hitems (hkind ▸ hpair), hvalue, hkind]

theorem blockOf_eq : t'.blockOf (o.renumber φ) = (t.blockOf o).map (renumber φ) := by
  have hkind : (t'.get (o.renumber φ).pair).valueKind = (t.get o.pair).valueKind := h.valueKind_eq o.pair
  have hchildren : t'.children (o.renumber φ).pair = (t.children o.pair).map φ := h.children_eq o.pair
  rw [blockOf, blockOf, hkind, hchildren]
  split
  · rfl
  · rw [map_map, map_map]
    rfl

theorem replacement_eq : t'.replacement limit (o.renumber φ) = (t.replacement limit o).map (renumber φ) := by
  have hpair : (o.renumber φ).pair = φ o.pair := rfl
  obtain heq | ⟨_, _, _, heq', heq⟩ | ⟨_, _, heq', heq, -⟩ := eq_or_of_plain (h.kind_eq o.pair)
  · rw [replacement, replacement, hpair, heq]
    cases t.kind o.pair with
    | scope => exact h.blockOf_eq o
    | aliasUsage definition =>
      cases definition with
      | none => rfl
      | some definition =>
        simp only [h.enter?_eq]
        cases hin : t.enter? limit o definition with
        | none => rfl
        | some within =>
          have hblock := h.blockOf_eq ⟨definition, within, o.depth + 1⟩
          rw [renumber, h.fixed_of_enter? limit hin] at hblock
          exact hblock
    | parameter definition place =>
      simp only [h.name_eq]
      cases (t.get o.pair).name with
      | none =>
        have husage : (o.renumber φ).within.usage? = o.within.usage?.map φ := Surroundings.usage?_renumber φ o.within
        rw [husage]
        cases o.within.usage? with
        | none => rfl
        | some usage =>
          simp only [Option.map_some, h.valueKind_eq, h.contentChildren_eq, filter_map]
          split
          · rfl
          · have hgiven : ((fun id => !(t'.kind id).isArgument) ∘ φ) = fun id => !(t.kind id).isArgument :=
              funext fun id => congrArg (!·) (h.flag_eq isArgument_shape id)
            have hcaller : (o.renumber φ).within.caller = o.within.caller.renumber φ :=
              Surroundings.caller_renumber φ o.within
            rw [hgiven, map_map, map_map, hcaller]
            rfl
      | some name =>
        have hargument : t'.argument? (o.renumber φ).within name = (t.argument? o.within name).map φ :=
          h.argument?_eq o.within name
        simp only [hargument]
        cases t.argument? o.within name with
        | some argument =>
          have hblock := h.blockOf_eq ⟨argument, o.within.caller, o.depth⟩
          rw [renumber, ← Surroundings.caller_renumber] at hblock
          exact hblock
        | none => exact h.blockOf_eq o
    | _ => rfl
  · rw [replacement, replacement, hpair, heq, heq']
    rfl
  · rw [replacement, replacement, hpair, heq, heq']
    rfl

theorem inside_eq (value : Option String) : t'.inside (o.renumber φ) value = (t.inside o value).map (renumber φ) := by
  have hkind : (t'.get (o.renumber φ).pair).valueKind = (t.get o.pair).valueKind := h.valueKind_eq o.pair
  have hitems : (t'.get (o.renumber φ).pair).items.isNone = (t.get o.pair).items.isNone := by
    rw [show (t'.get (o.renumber φ).pair).items = _ from h.items_eq o.pair, Option.isNone_map]
  have hreference : t'.reference? (o.renumber φ).pair = (t.reference? o.pair).map φ := h.reference?_eq o.pair
  simp only [inside, hkind, hitems, hreference, h.blockOf_eq]
  split
  · split
    · cases t.reference? o.pair <;> rfl
    · rfl
  · split
    · rfl
    · rfl

theorem expandTo_eq (valueSteps n : Nat) (o : Occurrence) :
    t'.expandTo limit valueSteps n (o.renumber φ) = t.expandTo limit valueSteps n o := by
  induction n generalizing o with
  | zero => rfl
  | succ n ih =>
    have hall : ∀ os, t'.expandAll limit valueSteps n (os.map (renumber φ)) = t.expandAll limit valueSteps n os := by
      intro os
      rw [expandAll, mapM_map, expandAll]
      exact congrArg (fun expand => Option.map List.flatten (List.mapM expand os)) (funext ih)
    have hkinds : expandedKind? (t'.kind (o.renumber φ).pair) = expandedKind? (t.kind o.pair) :=
      h.flag_eq (fun kind => by cases kind <;> rfl) o.pair
    cases hkind : expandedKind? (t.kind o.pair) with
    | none => rw [expandTo_of_replaced hkind, expandTo_of_replaced (hkinds.trans hkind), h.replacement_eq, hall]
    | some kind =>
      have hpair : (t'.get (o.renumber φ).pair).expanded kind = (t.get o.pair).expanded kind :=
        h.eq_of_keeps (fun pair => pair.expanded kind) (fun _ => rfl) (fun _ => rfl) o.pair
      rw [expandTo_of_kept hkind, expandTo_of_kept (hkinds.trans hkind), h.valueTo_eq]
      simp only [h.inside_eq, hall, hpair]

theorem expandDocument?_eq {id : PairId} (hfixed : φ id = id) :
    t'.expandDocument? limit id = t.expandDocument? limit id := by
  have hkind := h.flag_eq isDocument_shape id
  rw [hfixed] at hkind
  have hexpand := h.expandTo_eq limit (t.stepBound limit) (t.stepBound limit) ⟨id, .document, 0⟩
  rw [renumber, hfixed] at hexpand
  have hbound : t'.stepBound limit = t.stepBound limit := by rw [stepBound, stepBound, h.size_eq]
  rw [expandDocument?, expandDocument?, hkind, hbound]
  exact congrArg (fun found => if (t.kind id).isDocument then found.bind List.head? else none) hexpand

end PairTree.Renumbers

/-- Modules with the same trees but for numbers expand to the same documents. -/
theorem ModuleSet.expand_eq_of_renumbers {φ : Equiv.Perm PairId} {set set' : ModuleSet}
    (hmodules : set'.modules = set.modules) (hkind : ∀ m ∈ set.modules, (set.tree.kind m).isModule)
    (h : set.tree.Renumbers φ set'.tree) (limit : Nat) : set'.expand limit = set.expand limit := by
  rw [expand, expand, hmodules]
  refine flatMap_congr fun m hm => ?_
  have hdocuments : set'.documents m = set.documents m := by
    have hchildren := h.children_eq m
    rw [h.fixed (f := isModule) rfl (hkind m hm)] at hchildren
    rw [documents, hchildren, h.filter_map_eq rfl isDocument_shape, documents]
  rw [expandModule, expandModule, hdocuments]
  refine filterMap_congr fun d hd => ?_
  exact h.expandDocument?_eq limit (h.fixed (f := isDocument) rfl (mem_filter.mp hd).2)

end PairMarkup
