import Mathlib.Data.List.Nodup
import Mathlib.Data.List.Perm.Subperm
import Mathlib.Data.Nat.Basic
import Mathlib.Logic.Relation
import Mathlib.Order.Basic
import PairMarkup.Proofs.Tree.Get

namespace PairMarkup.PairTree

open List

/-- Every pair is held by its parent alone and once, and no chain of parents runs
    in a circle. Pairs that hang from nothing are allowed. -/
structure WellFormed (t : PairTree) : Prop where
  held_nodup : ∀ p, (t.get p).held.Nodup
  mem_held_iff : ∀ {c p}, c ∈ (t.get p).held ↔ t.parent? c = some p
  grounded : ∃ rank : PairId → Nat, ∀ c p, t.parent? c = some p → rank p < rank c

namespace WellFormed

variable {t : PairTree}

section

variable (hwf : t.WellFormed) {c p : PairId}

include hwf

theorem parent_lt_size (h : t.parent? c = some p) : p < t.size := lt_size_of_mem_held (hwf.mem_held_iff.mpr h)

theorem held_lt_size (h : c ∈ (t.get p).held) : c < t.size := lt_size_of_parent (hwf.mem_held_iff.mp h)

/-- What holds of pairs without a parent and passes from parents to what they hold
    holds of all pairs. -/
theorem induction_up {P : PairId → Prop}
    (root : ∀ x, t.parent? x = none → P x) (child : ∀ x p, t.parent? x = some p → P p → P x) (x : PairId) : P x := by
  obtain ⟨rank, hrank⟩ := hwf.grounded
  induction hr : rank x using Nat.strongRecOn generalizing x with
  | _ r ih =>
    cases hp : t.parent? x with
    | none => exact root x hp
    | some p => exact child x p hp (ih (rank p) (hr ▸ hrank x p hp) p rfl)

/-- The chain of parents repeats no pair and stays inside of the tree. -/
theorem chain_spec {rank : PairId → Nat}
    (hrank : ∀ c p, t.parent? c = some p → rank p < rank c) (n : Nat) (x : PairId) :
    (∀ a ∈ t.chain n (t.parent? x), a < t.size ∧ rank a < rank x) ∧ (t.chain n (t.parent? x)).Nodup := by
  induction n generalizing x with
  | zero => simp [chain]
  | succ n ih =>
    cases hp : t.parent? x with
    | none => simp [chain]
    | some p =>
      obtain ⟨hbound, hnodup⟩ := ih p
      have hlt := hrank x p hp
      simp only [chain, mem_cons, nodup_cons]
      refine ⟨?_, fun hself => lt_irrefl _ (hbound p hself).2, hnodup⟩
      rintro a (rfl | ha)
      · exact ⟨hwf.parent_lt_size hp, hlt⟩
      · exact ⟨(hbound a ha).1, lt_trans (hbound a ha).2 hlt⟩

end

end WellFormed

variable {t : PairTree} {n : Nat}

theorem chain_succ_eq {next : Option PairId}
    (h : (t.chain (n + 1) next).length ≤ n) : t.chain (n + 1) next = t.chain n next := by
  induction n generalizing next with
  | zero => exact length_eq_zero_iff.mp (Nat.le_zero.mp h)
  | succ n ih =>
    cases next with
    | none => rfl
    | some p =>
      have htail : (t.chain (n + 1) (t.parent? p)).length ≤ n := by
        simpa only [chain, length_cons, Nat.add_le_add_iff_right] using h
      simpa only [chain] using congrArg (p :: ·) (ih htail)

theorem length_le_of_nodup_of_lt {ids : List PairId} (hnodup : ids.Nodup)
    (hlt : ∀ a ∈ ids, a < n) : ids.length ≤ n := by
  have hsub : ids ⊆ List.range n := fun a ha => mem_range.mpr (hlt a ha)
  simpa using (subperm_of_subset hnodup hsub).length_le

@[simp] theorem ancestors_eq_nil {x : PairId} (h : t.parent? x = none) : t.ancestors x = [] := by
  rw [ancestors, h]
  cases t.size <;> rfl

namespace WellFormed

variable {t : PairTree} {x : PairId}

section

variable (hwf : t.WellFormed)

include hwf

theorem ancestors_eq_cons {x p : PairId} (h : t.parent? x = some p) : t.ancestors x = p :: t.ancestors p := by
  obtain ⟨rank, hrank⟩ := hwf.grounded
  obtain ⟨hbound, hnodup⟩ := hwf.chain_spec hrank (t.size + 1) x
  have hlength := length_le_of_nodup_of_lt hnodup fun a ha => (hbound a ha).1
  rw [ancestors, ← chain_succ_eq hlength, h]
  rfl

theorem ancestors_nodup (x : PairId) : (t.ancestors x).Nodup := by
  obtain ⟨rank, hrank⟩ := hwf.grounded
  exact (hwf.chain_spec hrank t.size x).2

theorem ancestor_lt_size {a x : PairId} (h : a ∈ t.ancestors x) : a < t.size := by
  obtain ⟨rank, hrank⟩ := hwf.grounded
  exact ((hwf.chain_spec hrank t.size x).1 a h).1

theorem not_mem_ancestors_self (x : PairId) : x ∉ t.ancestors x := by
  obtain ⟨rank, hrank⟩ := hwf.grounded
  intro h
  exact lt_irrefl _ ((hwf.chain_spec hrank t.size x).1 x h).2

/-- Every pair but the topmost one has fewer pairs above it than the tree holds. -/
theorem length_ancestors_lt (h : x < t.size) : (t.ancestors x).length < t.size := by
  have hnodup : (x :: t.ancestors x).Nodup := nodup_cons.mpr ⟨hwf.not_mem_ancestors_self x, hwf.ancestors_nodup x⟩
  refine length_le_of_nodup_of_lt hnodup fun a ha => ?_
  rcases mem_cons.mp ha with rfl | ha
  · exact h
  · exact hwf.ancestor_lt_size ha

theorem ancestors_suffix {a x : PairId} (h : a ∈ t.ancestors x) : a :: t.ancestors a <:+ t.ancestors x := by
  induction x using hwf.induction_up with
  | root x hx => simp [ancestors_eq_nil hx] at h
  | child x p hp ih =>
    rw [hwf.ancestors_eq_cons hp] at h ⊢
    rcases mem_cons.mp h with rfl | h
    · exact suffix_rfl
    · exact (ih h).trans (suffix_cons p _)

theorem mem_ancestors_trans {a b x : PairId} (hab : a ∈ t.ancestors b)
    (hbx : b ∈ t.ancestors x) : a ∈ t.ancestors x :=
  (hwf.ancestors_suffix hbx).subset (mem_cons_of_mem _ hab)

theorem mem_ancestors_of_parent {x p : PairId} (h : t.parent? x = some p) : p ∈ t.ancestors x := by
  rw [hwf.ancestors_eq_cons h]
  exact mem_cons_self

theorem child_lt_ne {x c : PairId} (hc : c ∈ t.children x) : c < t.size ∧ c ≠ x := by
  have hparent := hwf.mem_held_iff.mp (mem_append_left _ hc)
  refine ⟨lt_size_of_parent hparent, ?_⟩
  rintro rfl
  exact hwf.not_mem_ancestors_self _ (hwf.mem_ancestors_of_parent hparent)

/-- Below one pair, a pair and its ancestors pass through one pair only. -/
theorem eq_of_lineage {a b p x : PairId} (ha : a ∈ x :: t.ancestors x)
    (hb : b ∈ x :: t.ancestors x) (hap : t.parent? a = some p) (hbp : t.parent? b = some p) :
    a = b := by
  -- The one of `a` and `b` that is higher up would be an ancestor of its own parent.
  have hup : ∀ {c d}, t.parent? c = some p → t.parent? d = some p → d ∉ t.ancestors c := by
    intro c d hc hd hmem
    rw [hwf.ancestors_eq_cons hc] at hmem
    have hpd := hwf.mem_ancestors_of_parent hd
    rcases mem_cons.mp hmem with rfl | hmem
    · exact hwf.not_mem_ancestors_self _ hpd
    · exact hwf.not_mem_ancestors_self _ (hwf.mem_ancestors_trans hmem hpd)
  induction x using hwf.induction_up with
  | root x hx =>
    rw [ancestors_eq_nil hx, mem_singleton] at ha hb
    exact ha.trans hb.symm
  | child x q hq ih =>
    rcases mem_cons.mp ha with rfl | ha <;> rcases mem_cons.mp hb with rfl | hb
    · rfl
    · exact absurd hb (hup hap hbp)
    · exact absurd ha (hup hbp hap)
    · rw [hwf.ancestors_eq_cons hq] at ha hb
      exact ih ha hb

theorem length_ancestors_of_held {c p : PairId} (h : c ∈ (t.get p).held) :
    (t.ancestors c).length = (t.ancestors p).length + 1 := by
  rw [hwf.ancestors_eq_cons (hwf.mem_held_iff.mp h), length_cons]

/-- What passes from all that a pair holds to the pair holds of all pairs. -/
theorem induction_down {P : PairId → Prop}
    (step : ∀ x, x < t.size → (∀ c ∈ (t.get x).held, P c) → P x) (hx : x < t.size) :
    P x := by
  induction hn : t.size - (t.ancestors x).length using Nat.strongRecOn generalizing x with
  | _ n ih =>
    refine step x hx fun c hc => ih _ ?_ (hwf.held_lt_size hc) rfl
    have hdepth := hwf.length_ancestors_of_held hc
    have hlt := hwf.length_ancestors_lt hx
    omega

end

end WellFormed

end PairMarkup.PairTree
