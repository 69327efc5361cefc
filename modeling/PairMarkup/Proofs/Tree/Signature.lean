import PairMarkup.Proofs.Tree.Preorder
import PairMarkup.Resolution.Usage

namespace PairMarkup.PairTree

open List

variable {t : PairTree} {u d p x : PairId} {name : String}

/-- Where a definition first has a parameter of that name. -/
def declaration? (t : PairTree) (d : PairId) (name : String) : Option PairId :=
  (t.ownParameters d).find? fun id => (t.get id).name = some name

/-- The usage gives an argument for every parameter that the definition first has without a default. -/
def Complete (t : PairTree) (u d : PairId) : Prop :=
  ∀ name p, t.declaration? d name = some p → t.lacksDefault p = true → ∃ a ∈ t.arguments u, (t.get a).name = some name

theorem name_of_declaration? (h : t.declaration? d name = some p) : (t.get p).name = some name := by
  rw [declaration?] at h
  simpa using find?_some h

theorem mem_firstByName_go {seen : List String} {ids : List PairId} (hseen : name ∉ seen)
    (h : ids.find? (fun id => (t.get id).name = some name) = some p) :
    (name, ⟨p, t.lacksDefault p, t.takesValue p⟩) ∈ firstByName.go t seen ids := by
  induction ids generalizing seen with
  | nil => cases h
  | cons id ids ih =>
    rw [firstByName.go]
    by_cases hid : (t.get id).name = some name
    · rw [find?_cons_of_pos (by simpa using hid)] at h
      cases h
      simp [hid, hseen]
    · rw [find?_cons_of_neg (by simpa using hid)] at h
      cases hother : (t.get id).name with
      | none => exact ih hseen h
      | some other =>
        have hne : name ≠ other := by
          rintro rfl
          exact hid hother
        dsimp only
        split
        · exact ih hseen h
        · refine mem_cons_of_mem _ (ih ?_ h)
          simp [hne, hseen]

/-- The signature has every name with the first parameter of that name. -/
theorem mem_signature_of_declaration? (h : t.declaration? d name = some p) :
    (name, ⟨p, t.lacksDefault p, t.takesValue p⟩) ∈ (t.signature d).parameters :=
  mem_firstByName_go not_mem_nil h

theorem complete_of_usageComplaints (h : t.usageComplaints u d = []) : t.Complete u d := by
  intro name p hp hlacks
  simp only [usageComplaints, append_eq_nil_iff] at h
  obtain ⟨⟨⟨-, hmissing⟩, -⟩, -⟩ := h
  rw [filterMap_eq_nil_iff] at hmissing
  have hgiven := hmissing _ (mem_signature_of_declaration? hp)
  simpa [hlacks] using hgiven

/-- The parameters at or below a pair that belong to the same definition. -/
def parametersFrom (t : PairTree) (x : PairId) : List PairId :=
  (t.bodyTo t.size x).filter fun id => (t.kind id).isParameter

theorem ownParameters_eq (t : PairTree) (d : PairId) : t.ownParameters d = (t.get d).held.flatMap t.parametersFrom :=
  filter_flatMap

theorem Acyclic.parametersFrom_eq (h : t.Acyclic) (hx : x < t.size) : t.parametersFrom x =
      if (t.kind x).isAliasDefinition then []
      else (if (t.kind x).isParameter then [x] else []) ++ (t.get x).held.flatMap t.parametersFrom := by
  have hstable : t.bodyTo t.size x = t.bodyTo (t.size + 1) x := by
    refine h.walk_down_stable (F := t.bodyTo) (fun n m x hheld => ?_) hx (by omega) (by omega)
    simp only [bodyTo]
    rw [flatMap_congr hheld]
  rw [parametersFrom, hstable, bodyTo]
  split
  · rfl
  · rw [filter_cons, filter_flatMap]
    split <;> rfl

end PairMarkup.PairTree
