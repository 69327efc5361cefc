import PairMarkup.Proofs.Tree.Parsed
import PairMarkup.Proofs.Tree.Split

namespace PairMarkup.PairTree

/-- Hangs from one of the modules. -/
def Rooted (t : PairTree) (modules : List PairId) (x : PairId) : Prop := ∃ m ∈ modules, t.HangsFrom m x

variable {t t' : PairTree} {modules : List PairId} {x : PairId}

theorem Rooted.trans {y : PairId} (h : t.Rooted modules x) (hxy : t.HangsFrom x y) : t.Rooted modules y := by
  obtain ⟨m, hm, hx⟩ := h
  exact ⟨m, hm, hx.trans hxy⟩

theorem Rooted.held {c : PairId} (h : t.Rooted modules x) (hc : c ∈ (t.get x).held) :
    t.Rooted modules c := h.trans (.single hc)

theorem Exposed.hangsFrom {owner d : PairId} (h : t.Exposed owner d) : t.HangsFrom owner d := by
  induction h with
  | child hc => exact .single (mem_held_of_mem_children hc)
  | deeper _ _ hc ih => exact ih.tail (mem_held_of_mem_children hc)

/-- What is above a pair below a module is below the module as well. -/
theorem Owned.rooted_ancestor (h : t.Owned modules) {a : PairId} (hx : t.Rooted modules x)
    (ha : a ∈ t.ancestors x) : t.Rooted modules a := by
  obtain ⟨m, hm, hx⟩ := hx
  induction hx with
  | refl =>
    rw [ancestors_eq_nil (h.module_root hm)] at ha
    cases ha
  | @tail y x hy hx ih =>
    rw [h.wellFormed.ancestors_eq_cons (h.wellFormed.mem_held_iff.mp hx)] at ha
    rcases List.mem_cons.mp ha with rfl | ha
    · exact ⟨m, hm, hy⟩
    · exact ih ha

theorem Owned.rooted_of_lexical? (h : t.Owned modules) {name : String} {d : PairId}
    (hx : t.Rooted modules x) (hd : t.lexical? modules name x = some d) : t.Rooted modules d := by
  obtain ⟨owner, howner, hhoists⟩ := h.wellFormed.hoists_of_lexical? hd
  refine Rooted.trans ?_ hhoists.exposed.hangsFrom
  rcases howner with howner | howner
  · exact h.rooted_ancestor hx howner
  · exact ⟨owner, howner, .refl⟩

theorem rooted_iff_of_shape (hshape : t'.shape = t.shape) : t'.Rooted modules x ↔ t.Rooted modules x := by
  simp only [Rooted, HangsFrom, held_eq_of_shape hshape]

theorem Owned.rooted_lt_size (h : t.Owned modules) (hx : t.Rooted modules x) : x < t.size := by
  obtain ⟨m, hm, hx⟩ := hx
  rcases hx.cases_tail with rfl | ⟨p, -, hheld⟩
  · exact h.module_lt_size hm
  · exact h.wellFormed.held_lt_size hheld

/-- A split puts the new element above what hung from the scope, and no pair elsewhere. -/
theorem Owned.rooted_splitScope_iff (h : t.Owned modules) (id : PairId) (hx : x < t.size) :
    (t.splitScope id).Rooted modules x ↔ t.Rooted modules x := by
  by_cases hnamed : t.NamedScope id
  · have hsplit := isSplit_splitScope h.wellFormed hnamed
    have hwf' := hsplit.wellFormed h.wellFormed hnamed.lt_size
    refine exists_congr fun m => and_congr_right fun hm => ?_
    have hne : m ≠ t.size := (h.module_lt_size hm).ne
    rw [hwf'.hangsFrom_iff, h.wellFormed.hangsFrom_iff,
      ← hsplit.ancestors_eq h.wellFormed hnamed.lt_size hx.ne, List.mem_filter]
    simp [hne]
  · rw [splitScope_of_not hnamed]

end PairMarkup.PairTree
