import Mathlib.Data.List.Flatten
import PairMarkup.Proofs.Tree.Preorder
import PairMarkup.Proofs.Tree.Shape

namespace PairMarkup.PairTree

open List Option

/-- Found below `owner` through children alone and without passing a document, a
    module or an alias definition. -/
inductive Exposed (t : PairTree) (owner : PairId) : PairId → Prop
  | child {c : PairId} : c ∈ t.children owner → Exposed t owner c
  | deeper {x c : PairId} : Exposed t owner x → (t.kind x).isScopeOwner = false →
      c ∈ t.children x → Exposed t owner c

/-- The definition is known throughout `owner`. -/
structure Hoists (t : PairTree) (owner d : PairId) : Prop where
  owner_kind : (t.kind owner).isScopeOwner = true
  exposed : t.Exposed owner d
  kind : (t.kind d).isAliasDefinition = true

/-- The owner makes an alias of that name known. -/
def HoistsName (t : PairTree) (owner : PairId) (name : String) : Prop :=
  ∃ d, t.Hoists owner d ∧ (t.get d).nameText = name

/-- Of all definitions of that name that `owner` makes known, the first in
    pre-order. -/
structure HoistsFirst (t : PairTree) (owner : PairId) (name : String) (d : PairId) : Prop where
  hoists : t.Hoists owner d
  name_eq : (t.get d).nameText = name
  first : ∃ before after, t.preorder owner = before ++ d :: after ∧
    ∀ x ∈ before, t.Hoists owner x → (t.get x).nameText ≠ name

/-- What an alias name stands for at a pair: the nearest pair around it that knows
    the name decides, and if there is none, the first module that does. -/
inductive Denotes (t : PairTree) (modules : List PairId) (x : PairId) (name : String) :
    Option PairId → Prop
  | around {inner outer : List PairId} {owner d : PairId} :
      t.ancestors x = inner ++ owner :: outer → (∀ a ∈ inner, ¬ t.HoistsName a name) →
      t.HoistsFirst owner name d → Denotes t modules x name (some d)
  | elsewhere {before after : List PairId} {m d : PairId} :
      (∀ a ∈ t.ancestors x, ¬ t.HoistsName a name) → modules = before ++ m :: after →
      (∀ a ∈ before, ¬ t.HoistsName a name) → t.HoistsFirst m name d →
      Denotes t modules x name (some d)
  | nowhere : (∀ a ∈ t.ancestors x, ¬ t.HoistsName a name) →
      (∀ m ∈ modules, ¬ t.HoistsName m name) → Denotes t modules x name none

/-- The first definition of that name that `owner` makes known. -/
def hoistedAs? (t : PairTree) (name : String) (owner : PairId) : Option PairId :=
  (t.hoisted owner).find? fun d => (t.get d).nameText = name

/-- The definition that an alias name stands for at a pair. -/
def lexical? (t : PairTree) (modules : List PairId) (name : String) (x : PairId) : Option PairId :=
  ((t.ancestors x).findSome? (t.hoistedAs? name)).or (modules.findSome? (t.hoistedAs? name))

variable {t : PairTree} {owner d : PairId}

theorem Exposed.head {c : PairId} (hc : c ∈ t.children owner)
    (hkind : (t.kind c).isScopeOwner = false) (h : t.Exposed c d) : t.Exposed owner d := by
  induction h with
  | child hd => exact .deeper (.child hc) hkind hd
  | deeper _ hx hd ih => exact .deeper ih hx hd

theorem Exposed.cases_head (h : t.Exposed owner d) :
    ∃ c ∈ t.children owner, d = c ∨ ((t.kind c).isScopeOwner = false ∧ t.Exposed c d) := by
  induction h with
  | child hc => exact ⟨_, hc, .inl rfl⟩
  | deeper _ hx hd ih =>
    obtain ⟨c, hc, rfl | ⟨hkind, hexposed⟩⟩ := ih
    · exact ⟨_, hc, .inr ⟨hx, .child hd⟩⟩
    · exact ⟨c, hc, .inr ⟨hkind, .deeper hexposed hx hd⟩⟩

theorem mem_held_of_mem_children {c p : PairId} (h : c ∈ t.children p) : c ∈ (t.get p).held := mem_append_left _ h

/-- The tree is large enough for the search of definitions. -/
theorem Acyclic.definitions_eq {x : PairId} (h : t.Acyclic) (hx : x < t.size) : t.definitionsTo t.size x =
      if (t.kind x).isAliasDefinition then [x]
      else if (t.kind x).isScopeOwner then []
      else (t.children x).flatMap (t.definitionsTo t.size) := by
  have hstable : t.definitionsTo t.size x = t.definitionsTo (t.size + 1) x := by
    refine h.walk_down_stable (F := t.definitionsTo) (fun n m x hheld => ?_) hx (by omega) (by omega)
    simp only [definitionsTo]
    rw [flatMap_congr fun c hc => hheld c (mem_held_of_mem_children hc)]
  rw [hstable, definitionsTo]
  cases t.kind x <;> rfl

namespace WellFormed

variable {name : String} {modules : List PairId} {owner x d : PairId}

section

variable (hwf : t.WellFormed) {e : PairId}

include hwf

theorem mem_definitions_iff (hx : x < t.size) : d ∈ t.definitionsTo t.size x ↔ (t.kind d).isAliasDefinition ∧
      (d = x ∨ ((t.kind x).isScopeOwner = false ∧ t.Exposed x d)) := by
  refine hwf.induction_down (P := fun x => d ∈ t.definitionsTo t.size x ↔ (t.kind d).isAliasDefinition = true ∧
      (d = x ∨ ((t.kind x).isScopeOwner = false ∧ t.Exposed x d))) ?_ hx
  intro x hx ih
  have howner : (t.kind x).isAliasDefinition → (t.kind x).isScopeOwner := by
    cases t.kind x <;> simp [Kind.isAliasDefinition, Kind.isScopeOwner]
  rw [hwf.acyclic.definitions_eq hx]
  split
  · rename_i hdef
    rw [mem_singleton]
    constructor
    · rintro rfl
      exact ⟨hdef, .inl rfl⟩
    · rintro ⟨-, rfl | ⟨hkind, -⟩⟩
      · rfl
      · rw [howner hdef] at hkind
        cases hkind
  · rename_i hdef
    split
    · rename_i hkind
      constructor
      · exact nofun
      · rintro ⟨hd, rfl | ⟨hnot, -⟩⟩
        · exact absurd hd hdef
        · rw [hkind] at hnot
          cases hnot
    · rename_i hkind
      rw [Bool.not_eq_true] at hkind
      rw [mem_flatMap]
      constructor
      · rintro ⟨c, hc, hmem⟩
        obtain ⟨hd, hcases⟩ := (ih c (mem_held_of_mem_children hc)).mp hmem
        refine ⟨hd, .inr ⟨hkind, ?_⟩⟩
        rcases hcases with rfl | ⟨hcowner, hexposed⟩
        · exact .child hc
        · exact hexposed.head hc hcowner
      · rintro ⟨hd, rfl | ⟨-, hexposed⟩⟩
        · exact absurd hd hdef
        · obtain ⟨c, hc, hcases⟩ := hexposed.cases_head
          exact ⟨c, hc, (ih c (mem_held_of_mem_children hc)).mpr ⟨hd, hcases⟩⟩

theorem mem_hoisted_iff : d ∈ t.hoisted owner ↔ t.Hoists owner d := by
  unfold hoisted
  split
  · rename_i hkind
    rw [mem_flatMap]
    constructor
    · rintro ⟨c, hc, hmem⟩
      have hlt := hwf.held_lt_size (mem_held_of_mem_children hc)
      obtain ⟨hd, rfl | ⟨hcowner, hexposed⟩⟩ := (hwf.mem_definitions_iff hlt).mp hmem
      · exact ⟨hkind, .child hc, hd⟩
      · exact ⟨hkind, hexposed.head hc hcowner, hd⟩
    · intro h
      obtain ⟨c, hc, hcases⟩ := h.exposed.cases_head
      have hlt := hwf.held_lt_size (mem_held_of_mem_children hc)
      exact ⟨c, hc, (hwf.mem_definitions_iff hlt).mpr ⟨h.kind, hcases⟩⟩
  · rename_i hkind
    exact ⟨nofun, fun h => absurd h.owner_kind hkind⟩

theorem definitions_sublist (hx : x < t.size) : (t.definitionsTo t.size x).Sublist (t.preorder x) := by
  refine hwf.induction_down (P := fun x => (t.definitionsTo t.size x).Sublist (t.preorder x)) ?_ hx
  intro x hx ih
  rw [hwf.acyclic.definitions_eq hx, hwf.acyclic.preorder_eq_cons hx]
  split
  · exact (nil_sublist _).cons_cons x
  · split
    · exact nil_sublist _
    · refine List.Sublist.cons x ?_
      rw [Pair.held, flatMap_append]
      refine List.Sublist.trans ?_ (sublist_append_left _ _)
      exact .flatMap_right _ fun c hc => ih c (mem_held_of_mem_children hc)

theorem hoisted_sublist (howner : owner < t.size) : (t.hoisted owner).Sublist (t.preorder owner) := by
  unfold hoisted
  split
  · rw [hwf.acyclic.preorder_eq_cons howner, Pair.held, flatMap_append]
    refine List.Sublist.cons owner (List.Sublist.trans ?_ (sublist_append_left _ _))
    exact .flatMap_right _ fun c hc =>
      hwf.definitions_sublist (hwf.held_lt_size (mem_held_of_mem_children hc))
  · exact nil_sublist _

open Classical in
theorem hoisted_eq_filter (howner : owner < t.size) :
    t.hoisted owner = (t.preorder owner).filter fun d => t.Hoists owner d := by
  have hsub := (hwf.hoisted_sublist howner).filter fun d => t.Hoists owner d
  rw [filter_eq_self.mpr fun d hd => decide_eq_true (hwf.mem_hoisted_iff.mp hd)] at hsub
  refine hsub.eq_of_length_le (List.Subperm.length_le (subperm_of_subset ?_ fun d hd => ?_))
  · exact (hwf.preorder_nodup howner).filter _
  · exact hwf.mem_hoisted_iff.mpr (of_decide_eq_true (mem_filter.mp hd).2)

theorem hoistedAs?_eq_none_iff : t.hoistedAs? name owner = none ↔ ¬ t.HoistsName owner name := by
  simp only [hoistedAs?, find?_eq_none, hwf.mem_hoisted_iff, HoistsName, decide_eq_true_eq, not_exists, not_and]

theorem hoistedAs?_eq_some_iff : t.hoistedAs? name owner = some d ↔ t.HoistsFirst owner name d := by
  by_cases howner : owner < t.size
  · rw [hoistedAs?, hwf.hoisted_eq_filter howner, find?_filter, find?_eq_some_iff_append]
    simp only [decide_eq_true_eq, Bool.not_eq_true', decide_eq_false_iff_not, not_and]
    exact ⟨fun ⟨⟨hd, hname⟩, hfirst⟩ => ⟨hd, hname, hfirst⟩, fun h => ⟨⟨h.hoists, h.name_eq⟩, h.first⟩⟩
  · have hkind : (t.kind owner).isScopeOwner = false := by
      rw [kind, get_eq_default (Nat.le_of_not_lt howner)]
      rfl
    constructor
    · intro h
      rw [hoistedAs?, hoisted, hkind] at h
      cases h
    · intro h
      rw [h.hoists.owner_kind] at hkind
      cases hkind

theorem denotes_iff {r : Option PairId} : t.Denotes modules x name r ↔ t.lexical? modules name x = r := by
  have hnone : ∀ {ids : List PairId}, ids.findSome? (t.hoistedAs? name) = none ↔
      ∀ a ∈ ids, ¬ t.HoistsName a name := by
    intro ids
    simp only [findSome?_eq_none_iff, hwf.hoistedAs?_eq_none_iff]
  have hsome : ∀ {ids : List PairId} {d}, ids.findSome? (t.hoistedAs? name) = some d ↔
      ∃ before owner after, ids = before ++ owner :: after ∧ t.HoistsFirst owner name d ∧
        ∀ a ∈ before, ¬ t.HoistsName a name := by
    intro ids d
    simp only [findSome?_eq_some_iff, hwf.hoistedAs?_eq_some_iff, hwf.hoistedAs?_eq_none_iff]
  unfold lexical?
  constructor
  · rintro (⟨hsplit, hinner, hfirst⟩ | ⟨hno, hsplit, hbefore, hfirst⟩ | ⟨hno, hmodules⟩)
    · rw [hsome.mpr ⟨_, _, _, hsplit, hfirst, hinner⟩]
      rfl
    · rw [hnone.mpr hno, hsome.mpr ⟨_, _, _, hsplit, hfirst, hbefore⟩]
      rfl
    · rw [hnone.mpr hno, hnone.mpr hmodules]
      rfl
  · intro h
    cases haround : (t.ancestors x).findSome? (t.hoistedAs? name) with
    | some d =>
      obtain ⟨inner, owner, outer, hsplit, hfirst, hinner⟩ := hsome.mp haround
      rw [haround, some_or] at h
      exact h ▸ .around hsplit hinner hfirst
    | none =>
      rw [haround, none_or] at h
      cases hmodules : modules.findSome? (t.hoistedAs? name) with
      | some d =>
        obtain ⟨before, m, after, hsplit, hfirst, hbefore⟩ := hsome.mp hmodules
        exact h ▸ hmodules ▸ .elsewhere (hnone.mp haround) hsplit hbefore hfirst
      | none => exact h ▸ hmodules ▸ .nowhere (hnone.mp haround) (hnone.mp hmodules)

theorem hoists_of_lexical? (h : t.lexical? modules name x = some e) :
    ∃ owner, (owner ∈ t.ancestors x ∨ owner ∈ modules) ∧ t.Hoists owner e := by
  have hfound : ∀ {ids : List PairId}, ids.findSome? (t.hoistedAs? name) = some e →
      ∃ owner ∈ ids, t.Hoists owner e := by
    intro ids hids
    obtain ⟨owner, hmem, howner⟩ := exists_of_findSome?_eq_some hids
    exact ⟨owner, hmem, (hwf.hoistedAs?_eq_some_iff.mp howner).hoists⟩
  rcases or_eq_some_iff.mp h with h | ⟨-, h⟩
  · obtain ⟨owner, hmem, hhoists⟩ := hfound h
    exact ⟨owner, .inl hmem, hhoists⟩
  · obtain ⟨owner, hmem, hhoists⟩ := hfound h
    exact ⟨owner, .inr hmem, hhoists⟩

theorem definition_of_lexical? (h : t.lexical? modules name x = some e) : (t.kind e).isAliasDefinition := by
  obtain ⟨owner, -, hhoists⟩ := hwf.hoists_of_lexical? h
  exact hhoists.kind

end

end WellFormed

end PairMarkup.PairTree
