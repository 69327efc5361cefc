import PairMarkup.Proofs.Resolution.Mirroring

namespace PairMarkup

open List

namespace PairTree

variable {t₀ t t' : PairTree} {n : Nat} {x p s : PairId}

/-- The tree `t` is `t₀` with some of its named scopes split. -/
structure Unfolds (t₀ t : PairTree) : Prop where
  size_le : t₀.size ≤ t.size
  ancestors_eq : ∀ x, x < t₀.size → (t.ancestors x).filter (· < t₀.size) = t₀.ancestors x
  named : ∀ s, t.NamedScope s → t₀.NamedScope s
  /-- New pairs are right below scopes that were split. -/
  added : ∀ x, t₀.size ≤ x → x < t.size → (t.get x).isChoice = false ∧
    ∃ s, t.parent? x = some s ∧ t₀.NamedScope s ∧ ¬ t.NamedScope s
  /-- A scope that was split has lost its children. -/
  emptied : ∀ s, t₀.NamedScope s → ¬ t.NamedScope s → ∀ c ∈ t.children s, t₀.size ≤ c

/-- The innermost pair among the first `n` that is at or above a pair. -/
def origin? (t : PairTree) (n : Nat) (x : PairId) : Option PairId := (x :: t.ancestors x).find? (· < n)

theorem origin?_of_lt (t : PairTree) (h : x < n) : t.origin? n x = some x := find?_cons_of_pos (by simpa using h)

theorem WellFormed.origin?_of_parent (hwf : t.WellFormed) (hx : n ≤ x) (hp : t.parent? x = some p) :
    t.origin? n x = t.origin? n p := by
  rw [origin?, hwf.ancestors_eq_cons hp, find?_cons_of_neg (by simpa using hx), origin?]

theorem origin?_eq_of_shape (hshape : t'.shape = t.shape) (x : PairId) : t'.origin? n x = t.origin? n x := by
  rw [origin?, ancestors_eq_of_shape hshape, origin?]

namespace IsSplit

variable (h : t.IsSplit t' s) (hwf : t.WellFormed) (hs : s < t.size) (hn : n ≤ t.size)

include h hwf hs hn

theorem filter_ancestors (hx : x < t.size) : (t'.ancestors x).filter (· < n) = (t.ancestors x).filter (· < n) := by
  rw [← h.ancestors_eq hwf hs hx.ne, filter_filter]
  refine filter_congr fun a _ => ?_
  by_cases ha : a < n
  · have hne : a ≠ t.size := (ha.trans_le hn).ne
    simp [ha, hne]
  · simp [ha]

theorem origin?_eq (hx : x < t.size) : t'.origin? n x = t.origin? n x := by
  rw [origin?, origin?, ← head?_filter, ← head?_filter, filter_cons, filter_cons, h.filter_ancestors hwf hs hn hx]

end IsSplit

namespace Unfolds

theorem refl (hwf : t.WellFormed) : Unfolds t t where
  size_le := le_rfl
  ancestors_eq x _ := by
    rw [filter_eq_self]
    intro a ha
    simpa using hwf.ancestor_lt_size ha
  named _ h := h
  added _ hx hlt := absurd hlt (Nat.not_lt.mpr hx)
  emptied _ h hnot := absurd h hnot

theorem of_shape (h : Unfolds t₀ t) (hshape : t'.shape = t.shape) : Unfolds t₀ t' where
  size_le := size_eq_of_shape hshape ▸ h.size_le
  ancestors_eq x hx := by
    rw [← ancestors_shape t', hshape, ancestors_shape]
    exact h.ancestors_eq x hx
  named s hs := h.named s ((namedScope_iff_of_shape hshape).mp hs)
  added x hx hlt := by
    rw [size_eq_of_shape hshape] at hlt
    obtain ⟨hchoice, s, hs, hnamed, hsplit⟩ := h.added x hx hlt
    have hsame : (t'.get x).shape.isChoice = (t.get x).shape.isChoice := by rw [← get_shape, hshape, get_shape]
    refine ⟨hsame.trans hchoice, s, (parent?_eq_of_shape hshape x).trans hs, hnamed, ?_⟩
    rwa [namedScope_iff_of_shape hshape]
  emptied s hs hnot c hc := by
    rw [namedScope_iff_of_shape hshape] at hnot
    rw [← children_shape, hshape, children_shape] at hc
    exact h.emptied s hs hnot c hc

theorem split (h : Unfolds t₀ t) (hwf : t.WellFormed) (hnamed : t.NamedScope s) (hsplit : t.IsSplit t' s) :
    Unfolds t₀ t' := by
  have hs : s < t₀.size := (h.named s hnamed).lt_size
  have hother : ∀ {a}, t'.NamedScope a → t.NamedScope a := by
    intro a ha
    by_cases heq : a = s
    · exact heq ▸ hnamed
    · exact (hsplit.namedScope_iff heq).mp ha
  refine ⟨?_, fun x hx => ?_, fun a ha => h.named a (hother ha), fun x hx hlt => ?_, fun a ha hnot c hc => ?_⟩
  · rw [hsplit.size_eq]
    exact Nat.le_succ_of_le h.size_le
  · rw [hsplit.filter_ancestors hwf hnamed.lt_size h.size_le (hx.trans_le h.size_le)]
    exact h.ancestors_eq x hx
  · by_cases hnew : x = t.size
    · subst hnew
      refine ⟨?_, s, hsplit.parent?_element, h.named s hnamed, hsplit.not_namedScope⟩
      rw [hsplit.element]
      rfl
    · have hold : x < t.size := by
        rw [hsplit.size_eq] at hlt
        exact Nat.lt_of_le_of_ne (Nat.le_of_lt_succ hlt) hnew
      obtain ⟨hchoice, a, ha, hread, hdone⟩ := h.added x hx hold
      -- what was added before is not below the scope that is split now
      have hmem : x ∉ t.children s := by
        intro hmem
        have hparent := hwf.mem_held_iff.mp (mem_held_of_mem_children hmem)
        obtain rfl := Option.some.inj (hparent.symm.trans ha)
        exact hdone hnamed
      have hne : x ≠ s := fun heq => Nat.not_lt.mpr hx (heq ▸ hs)
      refine ⟨?_, a, (hsplit.parent?_eq hnew hmem).trans ha, hread, fun hagain => hdone (hother hagain)⟩
      rw [hsplit.other x hnew hne hmem]
      exact hchoice
  · by_cases heq : a = s
    · rw [heq, hsplit.children_scope] at hc
      rw [mem_singleton.mp hc]
      exact h.size_le
    · rw [hsplit.namedScope_iff heq] at hnot
      rw [hsplit.children_eq (ha.lt_size.trans_le h.size_le).ne heq] at hc
      exact h.emptied a ha hnot c hc

/-- What was above a pair at first is what stands above it now, or above the new element that does. -/
theorem parent?_eq_origin? (h : Unfolds t₀ t) (hwf₀ : t₀.WellFormed) (hwf : t.WellFormed) (hx : x < t₀.size)
    (hp : t.parent? x = some p) : t₀.parent? x = t.origin? t₀.size p := by
  have hhead : (t₀.ancestors x).head? = t₀.parent? x := by
    cases hparent : t₀.parent? x with
    | none => rw [ancestors_eq_nil hparent]; rfl
    | some q => rw [hwf₀.ancestors_eq_cons hparent]; rfl
  rw [← hhead, ← h.ancestors_eq x hx, hwf.ancestors_eq_cons hp, head?_filter, origin?]

end Unfolds

end PairTree

namespace Config

open PairTree

variable {set : ModuleSet} {m m' : Config}

theorem Step.unfolds (hset : set.Parsed) (hstep : Step m m') (hm : Leads (start set) m)
    (h : set.tree.Unfolds m.progress.tree) : set.tree.Unfolds m'.progress.tree := by
  cases hstep.advances hset hm with
  | same hshape => exact h.of_shape hshape
  | split hnamed _ _ hshape =>
    have hwf := wellFormed_of_leads hset hm
    exact (h.split hwf hnamed (isSplit_splitScope hwf hnamed)).of_shape hshape

theorem leads_unfolds (hset : set.Parsed) (hm : Leads (start set) m) : set.tree.Unfolds m.progress.tree :=
  induction_on (P := fun m => set.tree.Unfolds m.progress.tree)
    ((Unfolds.refl hset.tree_parsed.wellFormed).of_shape (start_noted set).shape_eq)
    (fun _ _ hm h hstep => hstep.unfolds hset hm h) hm

theorem Step.origin?_eq (hset : set.Parsed) (hstep : Step m m') (hm : Leads (start set) m) {x : PairId}
    (hx : x < m.progress.tree.size) :
    m'.progress.tree.origin? set.tree.size x = m.progress.tree.origin? set.tree.size x := by
  cases hstep.advances hset hm with
  | same hshape => exact origin?_eq_of_shape hshape x
  | split hnamed _ _ hshape =>
    have hwf := wellFormed_of_leads hset hm
    have hsplit := isSplit_splitScope hwf hnamed
    rw [origin?_eq_of_shape hshape]
    exact hsplit.origin?_eq hwf hnamed.lt_size (leads_unfolds hset hm).size_le hx

end Config

end PairMarkup
