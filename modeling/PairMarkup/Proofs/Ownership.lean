import PairMarkup.Proofs.Session

namespace PairMarkup

namespace PairTree

/-- The trees that walks may rely on: every pair has one owner at most, and the modules
    are the only tops that anything hangs from. -/
structure OneOwner (modules : List PairId) (t : PairTree) : Prop where
  /-- All children and parts of values, taken together, name no pair twice. -/
  held_nodup : ((List.range t.size).flatMap fun p => t.children p ++ (t.get p).items.getD []).Nodup
  held_iff : ∀ n p, n ∈ t.children p ++ (t.get p).items.getD [] ↔ t.parent? n = some p
  module_parent : ∀ m ∈ modules, t.parent? m = none
  module_not_held : ∀ m ∈ modules, ∀ p, m ∉ t.children p ++ (t.get p).items.getD []
  lineage : ∀ m ∈ modules, ∀ n, t.HangsFrom m n →
    Relation.ReflTransGen (fun c p => t.parent? c = some p) n m ∧ (n :: t.ancestors n).getLast? = some m
  preorder_nodup : ∀ m ∈ modules, (t.preorder m).Nodup
  mem_preorder_iff : ∀ m ∈ modules, ∀ n, n ∈ t.preorder m ↔ t.HangsFrom m n
  /-- A walk that may go deeper finds nothing more. -/
  preorder_ends : ∀ m ∈ modules, ∀ depth, t.size ≤ depth → t.preorderTo depth m = t.preorder m

variable {t : PairTree}

theorem WellFormed.reflTransGen_parent? (hwf : t.WellFormed) {root x : PairId}
    (h : t.HangsFrom root x) : Relation.ReflTransGen (fun c p => t.parent? c = some p) x root := by
  induction h with
  | refl => exact .refl
  | tail _ hc ih => exact .head (hwf.mem_held_iff.mp hc) ih

theorem Owned.oneOwner {modules : List PairId} (h : t.Owned modules) : t.OneOwner modules where
  held_nodup := h.wellFormed.all_held_nodup
  held_iff _ _ := h.wellFormed.mem_held_iff
  module_parent _ hm := h.module_root hm
  module_not_held _ hm := h.module_not_held hm
  lineage _ hm _ hn := ⟨h.wellFormed.reflTransGen_parent? hn, h.wellFormed.getLast_ancestors (h.module_root hm) hn⟩
  preorder_nodup _ hm := h.wellFormed.preorder_nodup (h.module_lt_size hm)
  mem_preorder_iff _ hm _ := h.wellFormed.mem_preorder_iff (h.module_lt_size hm)
  preorder_ends _ hm _ hdepth := h.wellFormed.acyclic.preorderTo_eq_preorder (h.module_lt_size hm) hdepth

end PairTree

namespace Session

/-- Whatever texts were read and resolved, every pair has one owner. -/
theorem pairs_have_one_owner {limit : Option Nat} {sources : List Source} {parsed resolved : Session}
    (hparse : (start limit).parseAll sources = .ok parsed) (hresolve : parsed.resolve = .ok resolved) :
    resolved.set.tree.OneOwner resolved.set.modules := by
  have howned := (parsed_of_start hparse).run_tracked.covered.toOwned
  rw [Progress.tree_forget, run_tree_eq hresolve, modules_eq hparse hresolve] at howned
  exact howned.oneOwner

/-- A value with parts, the `:=` form, a value that is a pair, a named scope that is
    split and a document that is implied. -/
def mixedSource : Source where
  name := "a.pxml"
  format := .xml
  text := ("!#ns = urn:ns\n!$a:\n    x = \"v $b w\"\n!d:\n    #ns.wrapper:\n        $a\n" ++
    "        c := \"t\"\n            $a\n    y = $a\nz = 1\n").toList

theorem mixedSource_pairs_have_one_owner : ∃ parsed resolved,
    (start none).parseAll [mixedSource] = .ok parsed ∧ parsed.resolve = .ok resolved ∧
      resolved.set.tree.preorder 0 = [0, 1, 2, 3, 5, 4, 6, 7, 8, 17, 9, 10, 11, 12, 13, 14, 16, 15] ∧
      resolved.set.tree.OneOwner resolved.set.modules := by
  obtain ⟨parsed, resolved, hparse, hresolve, hcheck⟩ := exists_confirmed
    (show confirms none [mixedSource] (fun _ resolved => resolved.set.tree.preorder 0 =
      [0, 1, 2, 3, 5, 4, 6, 7, 8, 17, 9, 10, 11, 12, 13, 14, 16, 15]) = true by decide +kernel)
  exact ⟨parsed, resolved, hparse, hresolve, hcheck,
    pairs_have_one_owner hparse hresolve⟩

end Session

end PairMarkup
