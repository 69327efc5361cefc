import Mathlib.Data.Finset.Card
import PairMarkup.Proofs.Tree.WellFormed

namespace PairMarkup.PairTree

open Finset

open Relation (TransGen)

variable {t : PairTree} {x c p : PairId}

/-- All that is held is in the tree, and no pair is below itself. A pair may be held more than once, and nothing is
    said of parents. -/
structure Acyclic (t : PairTree) : Prop where
  held_lt_size : ∀ {p c}, c ∈ (t.get p).held → c < t.size
  not_below_self : ∀ x, ¬ TransGen (fun p c => c ∈ (t.get p).held) x x

theorem WellFormed.acyclic (hwf : t.WellFormed) : t.Acyclic where
  held_lt_size := hwf.held_lt_size
  not_below_self x h := by
    have habove : ∀ y, TransGen (fun p c => c ∈ (t.get p).held) x y → x ∈ t.ancestors y := by
      intro y hy
      induction hy with
      | single hc => exact hwf.mem_ancestors_of_parent (hwf.mem_held_iff.mp hc)
      | tail _ hc ih => exact hwf.mem_ancestors_trans ih (hwf.mem_ancestors_of_parent (hwf.mem_held_iff.mp hc))
    exact hwf.not_mem_ancestors_self x (habove x h)

open Classical in
/-- How many pairs a pair is below. -/
noncomputable def depth (t : PairTree) (x : PairId) : Nat :=
  ((Finset.range t.size).filter fun p => TransGen (fun p c => c ∈ (t.get p).held) p x).card

namespace Acyclic

section

variable (h : t.Acyclic)

include h

theorem depth_lt_depth (hc : c ∈ (t.get p).held) : t.depth p < t.depth c := by
  classical
  refine card_lt_card ((ssubset_iff_of_subset ?_).mpr ⟨p, ?_, ?_⟩)
  · exact monotone_filter_right _ fun q _ hq => hq.tail hc
  · exact mem_filter.mpr ⟨mem_range.mpr (lt_size_of_mem_held hc), .single hc⟩
  · exact fun hp => h.not_below_self p (mem_filter.mp hp).2

theorem depth_lt_size (hx : x < t.size) : t.depth x < t.size := by
  classical
  have hcard : t.depth x < (range t.size).card :=
    card_lt_card (filter_ssubset.mpr ⟨x, mem_range.mpr hx, h.not_below_self x⟩)
  rwa [card_range] at hcard

end

/-- A walk down the tree that may go as deep as the tree is large gives the same as
    one that may go deeper. -/
theorem walk_down_stable {α : Type} (h : t.Acyclic) {F : Nat → PairId → α}
    (hstep : ∀ n m x, (∀ c ∈ (t.get x).held, F n c = F m c) → F (n + 1) x = F (m + 1) x)
    {n m : Nat} (hx : x < t.size) (hn : t.size ≤ n + t.depth x) (hm : t.size ≤ m + t.depth x) : F n x = F m x := by
  have hlt := h.depth_lt_size hx
  induction n generalizing m x with
  | zero => omega
  | succ n ih =>
    cases m with
    | zero => omega
    | succ m =>
      refine hstep n m x fun c hc => ?_
      have hdepth := h.depth_lt_depth hc
      exact ih (h.held_lt_size hc) (by omega) (by omega) (h.depth_lt_size (h.held_lt_size hc))

end Acyclic

end PairMarkup.PairTree
