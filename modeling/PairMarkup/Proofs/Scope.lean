import PairMarkup.Proofs.Tree.Lexical

namespace PairMarkup

open List

namespace PairTree

variable {t : PairTree} {modules : List PairId}

@[simp] theorem hoistedAs?_shape (t : PairTree) (name : String) (owner : PairId) :
    t.shape.hoistedAs? name owner = t.hoistedAs? name owner := by
  simp only [hoistedAs?, hoisted_shape, nameText_shape]

@[simp] theorem lexical?_shape (t : PairTree) (modules : List PairId) (name : String) (x : PairId) :
    t.shape.lexical? modules name x = t.lexical? modules name x := by
  simp only [lexical?, ancestors_shape, funext (hoistedAs?_shape t name)]

theorem lexical?_of_root {x : PairId} (h : t.parent? x = none) (name : String) :
    t.lexical? modules name x = modules.findSome? (t.hoistedAs? name) := by
  rw [lexical?, ancestors_eq_nil h]
  rfl

theorem WellFormed.lexical?_of_parent (hwf : t.WellFormed) {x p : PairId} (h : t.parent? x = some p)
    (name : String) : t.lexical? modules name x = (t.hoistedAs? name p).or (t.lexical? modules name p) := by
  rw [lexical?, hwf.ancestors_eq_cons h, findSome?_cons, lexical?]
  cases t.hoistedAs? name p with
  | some d => rfl
  | none => rfl

theorem lookup_frame (t : PairTree) (name : String) (owner : PairId) :
    (t.frame owner).aliases.lookup name = t.hoistedAs? name owner := by
  unfold frame hoistedAs?
  induction t.hoisted owner with
  | nil => rfl
  | cons d ds ih =>
    by_cases hname : (t.get d).nameText = name
    · subst hname
      simp
    · have hne : (name == (t.get d).nameText) = false := beq_false_of_ne (Ne.symm hname)
      simpa [lookup_cons, hname, hne] using ih

theorem hoistedAs?_eq_none_of_kind {owner : PairId} (h : (t.kind owner).isScopeOwner = false)
    (name : String) : t.hoistedAs? name owner = none := by
  rw [hoistedAs?, hoisted, h]
  rfl

end PairTree

namespace Scope

open PairTree

variable (t : PairTree) (name : String) (id : PairId) (scope : Scope)

/-- A pair without names of its own hoists nothing, so that it does not matter
    whether a frame is made for it. -/
theorem aliasFor?_enter : (t.enter id scope).aliasFor? name = (t.hoistedAs? name id).or (scope.aliasFor? name) := by
  unfold enter
  split
  · rw [aliasFor?, lookup_frame]
  · rename_i h
    simp only [declares, Bool.or_eq_true, not_or, Bool.not_eq_true] at h
    rw [hoistedAs?_eq_none_of_kind h.1, Option.none_or]

theorem aliasFor?_openScope (inner : Scope) : (t.openScope id inner).aliasFor? name = inner.aliasFor? name := by
  simp only [openScope]
  split
  · rw [aliasFor?]
  · rfl

theorem aliasFor?_enterFully :
    (t.enterFully scope id).aliasFor? name = (t.hoistedAs? name id).or (scope.aliasFor? name) := by
  rw [← aliasFor?_enter]
  simp only [enterFully]
  split
  · rw [aliasFor?]
  · rfl

theorem aliasFor?_globalScope (set : ModuleSet) :
    set.globalScope.aliasFor? name = set.modules.findSome? (set.tree.hoistedAs? name) := by
  simp only [ModuleSet.globalScope, aliasFor?, Option.or_none]
  induction set.modules with
  | nil => rfl
  | cons m ms ih =>
    rw [map_cons, flatMap_cons, lookup_append, lookup_frame, ih, findSome?_cons]
    cases set.tree.hoistedAs? name m <;> rfl

variable {t} {modules : List PairId} {root : Scope}

section

variable (hwf : t.WellFormed) (hroot : root.aliasFor? name = modules.findSome? (t.hoistedAs? name)) (x : PairId)

include hwf hroot

/-- The scope that is found along the path to a pair knows what is known there. -/
theorem aliasFor?_scopeInside : (t.scopeInside root x).aliasFor? name =
      (t.hoistedAs? name x).or (t.lexical? modules name x) := by
  induction x using hwf.induction_up with
  | root x hx =>
    rw [lexical?_of_root hx, ← hroot, ← aliasFor?_enterFully]
    simp [scopeInside, pathTo, ancestors_eq_nil hx]
  | child x p hp ih =>
    rw [hwf.lexical?_of_parent hp, ← ih, ← aliasFor?_enterFully]
    simp only [scopeInside, pathTo, hwf.ancestors_eq_cons hp, reverse_cons, foldl_append, foldl_cons, foldl_nil]

theorem aliasFor?_scopeAround : (t.scopeAround root x).aliasFor? name = t.lexical? modules name x := by
  unfold scopeAround
  split
  · rename_i hx
    rw [hroot, lexical?_of_root hx]
  · rename_i p hp
    rw [aliasFor?_scopeInside name hwf hroot, hwf.lexical?_of_parent hp]

end

end Scope

end PairMarkup
