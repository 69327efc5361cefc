import Mathlib.Data.List.Find
import PairMarkup.Proofs.Parsing
import PairMarkup.Proofs.Tree.Rooted

namespace PairMarkup

open List

/-- The first of a kind stays the first when a list is mapped and put in another order, if those of
    that kind keep theirs. -/
theorem find?_eq_of_order {α β : Type} {f : α → β} {l : List α} {l' : List β} {p : α → Bool} {q : β → Bool}
    (hmem : ∀ b, b ∈ l' ↔ ∃ a ∈ l, f a = b) (hkind : ∀ a ∈ l, q (f a) = p a) (hnodup : l'.Nodup)
    (horder : ∀ a b, p a → p b → [a, b].Sublist l → [f a, f b].Sublist l') :
    l'.find? q = (l.find? p).map f := by
  cases hfind : l.find? p with
  | none =>
    refine find?_eq_none.mpr fun b hb => ?_
    obtain ⟨a, ha, rfl⟩ := (hmem b).mp hb
    rw [hkind a ha]
    exact find?_eq_none.mp hfind a ha
  | some a =>
    obtain ⟨hpa, before, after, rfl, hbefore⟩ := find?_eq_some_iff_append.mp hfind
    have ha : a ∈ before ++ a :: after := mem_append_right _ mem_cons_self
    obtain ⟨before', after', hl', hnot⟩ := eq_append_cons_of_mem ((hmem (f a)).mpr ⟨a, ha, rfl⟩)
    refine find?_eq_some_iff_append.mpr ⟨(hkind a ha).trans hpa, before', after', hl', fun b hb => ?_⟩
    obtain ⟨c, hc, rfl⟩ := (hmem b).mp (hl' ▸ mem_append_left _ hb)
    rw [hkind c hc]
    by_contra hpc
    rw [Bool.not_not_eq] at hpc
    -- Another one would come after `a`, and so after `f a`.
    have hafter : c ∈ after := by
      rcases mem_append.mp hc with hc | hc
      · have hnone := hbefore c hc
        rw [hpc] at hnone
        cases hnone
      · refine (mem_cons.mp hc).resolve_left ?_
        rintro rfl
        exact hnot hb
    have hsub := horder a c hpa hpc (sublist_append_of_sublist_right ((singleton_sublist.mpr hafter).cons_cons a))
    rw [hl'] at hsub hnodup
    obtain ⟨l₁, l₂, hsplit, h₁, h₂⟩ := sublist_append_iff.mp hsub
    cases l₁ with
    | nil =>
      rw [nil_append] at hsplit
      subst hsplit
      have hmem : f c ∈ after' := singleton_sublist.mp (cons_sublist_cons.mp h₂)
      exact (nodup_append.mp hnodup).2.2 _ hb _ (mem_cons_of_mem _ hmem) rfl
    | cons x l₁ =>
      obtain ⟨rfl, -⟩ := List.cons.inj hsplit
      exact hnot (h₁.subset mem_cons_self)

namespace Kind

variable (kind : Kind)

theorem isAliasDefinition_eq : kind.isAliasDefinition = decide (kind.name = "alias definition") := by
  cases kind <;> simp [isAliasDefinition, name]

theorem isAliasUsage_eq : kind.isAliasUsage = decide (kind.name = "alias") := by
  cases kind <;> simp [isAliasUsage, name]

theorem isScopeOwner_eq : kind.isScopeOwner = decide (kind.name ∈ ["module", "document", "alias definition"]) := by
  cases kind <;> simp [isScopeOwner, name]

end Kind

/-- The second unit is the first one with its pairs moved by `φ`: each pair holds what it held, in
    some order of its children. Definitions of one name that a pair makes known come in the same
    order as before. -/
structure ModuleSet.Reordering (s s' : ModuleSet) (φ : PairId → PairId) : Prop where
  modules_eq : s'.modules = s.modules.map φ
  children_perm : ∀ x, s.tree.Rooted s.modules x → (s'.tree.children (φ x)).Perm ((s.tree.children x).map φ)
  items_eq : ∀ x, s.tree.Rooted s.modules x → (s'.tree.get (φ x)).items = (s.tree.get x).items.map (List.map φ)
  kind_eq : ∀ x, s.tree.Rooted s.modules x → (s'.tree.kind (φ x)).name = (s.tree.kind x).name
  name_eq : ∀ x, s.tree.Rooted s.modules x → (s'.tree.get (φ x)).name = (s.tree.get x).name
  hoisted_order : ∀ x, s.tree.Rooted s.modules x → ∀ d e, (s.tree.get d).nameText = (s.tree.get e).nameText →
    [d, e].Sublist (s.tree.hoisted x) → [φ d, φ e].Sublist (s'.tree.hoisted (φ x))

namespace ModuleSet.Reordering

open PairTree

variable {s s' : ModuleSet} {φ : PairId → PairId} {x y : PairId}

section

variable (h : s.Reordering s' φ)

include h

section

variable (hx : s.tree.Rooted s.modules x)

include hx

theorem nameText_eq : (s'.tree.get (φ x)).nameText = (s.tree.get x).nameText := by
  rw [Pair.nameText, h.name_eq x hx, Pair.nameText]

theorem isAliasDefinition_eq : (s'.tree.kind (φ x)).isAliasDefinition = (s.tree.kind x).isAliasDefinition := by
  rw [Kind.isAliasDefinition_eq, h.kind_eq x hx, Kind.isAliasDefinition_eq]

theorem isAliasUsage_eq : (s'.tree.kind (φ x)).isAliasUsage = (s.tree.kind x).isAliasUsage := by
  rw [Kind.isAliasUsage_eq, h.kind_eq x hx, Kind.isAliasUsage_eq]

theorem isScopeOwner_eq : (s'.tree.kind (φ x)).isScopeOwner = (s.tree.kind x).isScopeOwner := by
  rw [Kind.isScopeOwner_eq, h.kind_eq x hx, Kind.isScopeOwner_eq]

theorem held_perm : ((s'.tree.get (φ x)).held).Perm ((s.tree.get x).held.map φ) := by
  rw [Pair.held, Pair.held, h.items_eq x hx, map_append]
  refine (h.children_perm x hx).append (.of_eq ?_)
  cases (s.tree.get x).items <;> rfl

theorem mem_held_iff : y ∈ (s'.tree.get (φ x)).held ↔ ∃ c ∈ (s.tree.get x).held, φ c = y := by
  rw [(h.held_perm hx).mem_iff, mem_map]

end

theorem mem_modules (hx : x ∈ s.modules) : φ x ∈ s'.modules := h.modules_eq ▸ mem_map_of_mem hx

theorem rooted (hx : s.tree.Rooted s.modules x) : s'.tree.Rooted s'.modules (φ x) := by
  obtain ⟨m, hm, hx⟩ := hx
  induction hx with
  | refl => exact ⟨φ m, h.mem_modules hm, .refl⟩
  | @tail p c hp hc ih => exact ih.held ((h.mem_held_iff ⟨m, hm, hp⟩).mpr ⟨c, hc, rfl⟩)

theorem exists_rooted (hy : s'.tree.Rooted s'.modules y) : ∃ x, s.tree.Rooted s.modules x ∧ φ x = y := by
  obtain ⟨m', hm, hy⟩ := hy
  induction hy with
  | refl =>
    rw [h.modules_eq] at hm
    obtain ⟨m, hmem, rfl⟩ := mem_map.mp hm
    exact ⟨m, ⟨m, hmem, .refl⟩, rfl⟩
  | tail _ hc ih =>
    obtain ⟨p, hp, rfl⟩ := ih
    obtain ⟨c, hheld, rfl⟩ := (h.mem_held_iff hp).mp hc
    exact ⟨c, hp.held hheld, rfl⟩

section

variable (hx : s.tree.Rooted s.modules x)

include hx

theorem mem_children_iff : y ∈ s'.tree.children (φ x) ↔ ∃ c ∈ s.tree.children x, φ c = y := by
  rw [(h.children_perm x hx).mem_iff, mem_map]

theorem exposed (hy : s.tree.Exposed x y) : s'.tree.Exposed (φ x) (φ y) := by
  induction hy with
  | child hc => exact .child ((h.mem_children_iff hx).mpr ⟨_, hc, rfl⟩)
  | @deeper z c hz hkind hc ih =>
    have hrooted := hx.trans hz.hangsFrom
    refine .deeper ih ((h.isScopeOwner_eq hrooted).trans hkind) ?_
    exact (h.mem_children_iff hrooted).mpr ⟨c, hc, rfl⟩

theorem exists_exposed (hy : s'.tree.Exposed (φ x) y) : ∃ z, s.tree.Exposed x z ∧ φ z = y := by
  induction hy with
  | child hc =>
    obtain ⟨c, hchild, rfl⟩ := (h.mem_children_iff hx).mp hc
    exact ⟨c, .child hchild, rfl⟩
  | deeper _ hkind hc ih =>
    obtain ⟨z, hz, rfl⟩ := ih
    have hrooted := hx.trans hz.hangsFrom
    obtain ⟨c, hchild, rfl⟩ := (h.mem_children_iff hrooted).mp hc
    exact ⟨c, .deeper hz ((h.isScopeOwner_eq hrooted).symm.trans hkind) hchild, rfl⟩

end

end

section

variable (h : s.Reordering s' φ) (hs' : s'.Parsed)

include h hs'

theorem parent?_of_held {p c : PairId} (hp : s.tree.Rooted s.modules p) (hc : c ∈ (s.tree.get p).held) :
    s'.tree.parent? (φ c) = some (φ p) :=
  hs'.tree_parsed.wellFormed.mem_held_iff.mp ((h.mem_held_iff hp).mpr ⟨c, hc, rfl⟩)

theorem parent?_of_module {m : PairId} (hm : m ∈ s.modules) : s'.tree.parent? (φ m) = none :=
  hs'.tree_parsed.module_root (h.mem_modules hm)

theorem injective (hx : s.tree.Rooted s.modules x) (hy : s.tree.Rooted s.modules y) (hφ : φ x = φ y) : x = y := by
  have hwf' := hs'.tree_parsed.wellFormed
  obtain ⟨m, hm, hx⟩ := hx
  obtain ⟨n, hn, hy⟩ := hy
  induction hx generalizing y with
  | refl =>
    have hroot := h.parent?_of_module hs' hm
    rcases hy.cases_tail with rfl | ⟨q, hq, hy⟩
    · have hnodup := h.modules_eq ▸ hs'.modules_nodup
      exact inj_on_of_nodup_map hnodup hm hn hφ
    · rw [hφ, h.parent?_of_held hs' ⟨n, hn, hq⟩ hy] at hroot
      cases hroot
  | @tail p x hp hx ih =>
    have hparent := h.parent?_of_held hs' ⟨m, hm, hp⟩ hx
    rcases hy.cases_tail with rfl | ⟨q, hq, hy⟩
    · rw [hφ, h.parent?_of_module hs' hn] at hparent
      cases hparent
    · rw [hφ, h.parent?_of_held hs' ⟨n, hn, hq⟩ hy] at hparent
      obtain rfl := ih (Option.some.inj hparent).symm hq
      have hnodup := (h.held_perm ⟨m, hm, hp⟩).nodup_iff.mp (hwf'.held_nodup _)
      exact inj_on_of_nodup_map hnodup hx hy hφ

variable (hs : s.Parsed)

include hs

section

variable (hx : s.tree.Rooted s.modules x)

include hx

theorem ancestors_eq : s'.tree.ancestors (φ x) = (s.tree.ancestors x).map φ := by
  have hwf := hs.tree_parsed.wellFormed
  obtain ⟨m, hm, hx⟩ := hx
  induction hx with
  | refl =>
    rw [ancestors_eq_nil (h.parent?_of_module hs' hm), ancestors_eq_nil (hs.tree_parsed.module_root hm)]
    rfl
  | @tail p x hp hx ih =>
    rw [hs'.tree_parsed.wellFormed.ancestors_eq_cons (h.parent?_of_held hs' ⟨m, hm, hp⟩ hx),
      hwf.ancestors_eq_cons (hwf.mem_held_iff.mp hx), ih]
    rfl

theorem enclosingDefinition?_eq : s'.tree.enclosingDefinition? (φ x) = (s.tree.enclosingDefinition? x).map φ := by
  rw [enclosingDefinition?, enclosingDefinition?, h.ancestors_eq hs' hs hx, find?_map]
  refine congrArg (Option.map φ) (find?_congr fun a ha => ?_)
  exact h.isAliasDefinition_eq (hs.tree_parsed.toOwned.rooted_ancestor hx ha)

theorem mem_hoisted_iff : y ∈ s'.tree.hoisted (φ x) ↔ ∃ d ∈ s.tree.hoisted x, φ d = y := by
  simp only [hs.tree_parsed.wellFormed.mem_hoisted_iff, hs'.tree_parsed.wellFormed.mem_hoisted_iff]
  have howner := h.isScopeOwner_eq hx
  have hkind : ∀ {d}, s.tree.Exposed x d →
      (s'.tree.kind (φ d)).isAliasDefinition = (s.tree.kind d).isAliasDefinition :=
    fun hd => h.isAliasDefinition_eq (hx.trans hd.hangsFrom)
  constructor
  · intro hy
    obtain ⟨d, hd, rfl⟩ := h.exists_exposed hx hy.exposed
    exact ⟨d, ⟨howner.symm.trans hy.owner_kind, hd, (hkind hd).symm.trans hy.kind⟩, rfl⟩
  · rintro ⟨d, hd, rfl⟩
    exact ⟨howner.trans hd.owner_kind, h.exposed hx hd.exposed, (hkind hd.exposed).trans hd.kind⟩

end

theorem hoistedAs?_eq (name : String) (hx : s.tree.Rooted s.modules x) :
    s'.tree.hoistedAs? name (φ x) = (s.tree.hoistedAs? name x).map φ := by
  have hwf' := hs'.tree_parsed.wellFormed
  refine find?_eq_of_order (fun y => h.mem_hoisted_iff hs' hs hx) (fun d hd => ?_) ?_ fun d e hd he => ?_
  · have hhoists := hs.tree_parsed.wellFormed.mem_hoisted_iff.mp hd
    rw [h.nameText_eq (hx.trans hhoists.exposed.hangsFrom)]
  · have hlt := hs'.tree_parsed.toOwned.rooted_lt_size (h.rooted hx)
    exact (hwf'.preorder_nodup hlt).sublist (hwf'.hoisted_sublist hlt)
  · exact h.hoisted_order x hx d e ((of_decide_eq_true hd).trans (of_decide_eq_true he).symm)

theorem lexical?_eq (name : String) (hx : s.tree.Rooted s.modules x) :
    s'.tree.lexical? s'.modules name (φ x) = (s.tree.lexical? s.modules name x).map φ := by
  have hfind : ∀ ids : List PairId, (∀ a ∈ ids, s.tree.Rooted s.modules a) →
      (ids.map φ).findSome? (s'.tree.hoistedAs? name) = (ids.findSome? (s.tree.hoistedAs? name)).map φ := by
    intro ids hids
    induction ids with
    | nil => rfl
    | cons a ids ih =>
      rw [map_cons, findSome?_cons, findSome?_cons, h.hoistedAs?_eq hs' hs name (hids a mem_cons_self)]
      cases s.tree.hoistedAs? name a with
      | none => exact ih fun b hb => hids b (mem_cons_of_mem _ hb)
      | some d => rfl
  rw [lexical?, lexical?, h.ancestors_eq hs' hs hx, h.modules_eq,
    hfind _ fun a ha => hs.tree_parsed.toOwned.rooted_ancestor hx ha,
    hfind _ fun m hm => ⟨m, hm, .refl⟩]
  cases (s.tree.ancestors x).findSome? (s.tree.hoistedAs? name) <;> rfl

end

end ModuleSet.Reordering

end PairMarkup
