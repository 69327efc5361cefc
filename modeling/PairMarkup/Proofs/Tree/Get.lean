import PairMarkup.Tree

namespace PairMarkup.PairTree

variable (t : PairTree) (pair : Pair) (ids : List PairId) (parent : Option PairId) (x : PairId)
  {f : Pair → Pair} {id : PairId} {α : Type} (g : Pair → α) {c p : PairId}

theorem get_eq_default {t : PairTree} (h : t.size ≤ id) : t.get id = default := by
  have hnone : t.pairs[id]? = none := Array.getElem?_eq_none h
  simp only [get, Array.getD_eq_getD_getElem?, hnone, Option.getD_none]

theorem lt_size_of_mem_held {t : PairTree} (h : c ∈ (t.get p).held) : p < t.size := by
  refine Nat.lt_of_not_le fun hle => ?_
  rw [get_eq_default hle] at h
  cases h

theorem lt_size_of_parent {t : PairTree} (h : t.parent? c = some p) : c < t.size := by
  refine Nat.lt_of_not_le fun hle => ?_
  rw [parent?, get_eq_default hle] at h
  cases h

theorem lt_size_of_kind {t : PairTree} (h : ¬ (t.kind id).isComment) : id < t.size := by
  refine Nat.lt_of_not_le fun hle => h ?_
  rw [kind, get_eq_default hle]
  rfl

@[simp] theorem size_modify (id : PairId) (f : Pair → Pair) : (t.modify id f).size = t.size := Array.size_modify

theorem get_modify (id x : PairId) (f : Pair → Pair) :
    (t.modify id f).get x = if x = id ∧ x < t.size then f (t.get x) else t.get x := by
  simp only [get, modify, Array.getD_eq_getD_getElem?, Array.getElem?_modify]
  by_cases hx : id = x
  · subst hx
    by_cases hlt : id < t.pairs.size
    · simp [size, hlt]
    · simp [size, hlt]
  · simp [hx, Ne.symm hx]

theorem get_modify_self {t : PairTree} (h : id < t.size) (f : Pair → Pair) :
    (t.modify id f).get id = f (t.get id) := by
  rw [get_modify, if_pos ⟨rfl, h⟩]

theorem get_modify_of_ne {t : PairTree} {x : PairId} (h : x ≠ id) (f : Pair → Pair) :
    (t.modify id f).get x = t.get x := by
  rw [get_modify, if_neg fun hx => h hx.1]

theorem modify_modify (id : PairId) (f g : Pair → Pair) : (t.modify id f).modify id g = t.modify id (g ∘ f) := by
  refine congrArg PairTree.mk (Array.ext (by simp [modify]) fun i _ _ => ?_)
  simp only [Array.getElem_modify, modify]
  split <;> rfl

/-- What a change leaves as it is may be read off before or after it. -/
theorem modify_eq_of_keeps_at (t : PairTree) (id x : PairId)
    (hf : x = id → ∀ pair, g (f pair) = g pair) : g ((t.modify id f).get x) = g (t.get x) := by
  rw [get_modify]
  split
  · rename_i h
    exact hf h.1 _
  · rfl

theorem modify_eq_of_keeps (t : PairTree) (id x : PairId) (hf : ∀ pair, g (f pair) = g pair) :
    g ((t.modify id f).get x) = g (t.get x) :=
  modify_eq_of_keeps_at g t id x fun _ => hf

@[simp] theorem size_foldl_modify (f : Pair → Pair) : (ids.foldl (fun t id => t.modify id f) t).size = t.size := by
  induction ids generalizing t with
  | nil => rfl
  | cons id ids ih => exact (ih _).trans (size_modify ..)

theorem foldl_modify_eq_of_keeps (t : PairTree) (ids : List PairId) (x : PairId)
    (hf : ∀ pair, g (f pair) = g pair) : g ((ids.foldl (fun t id => t.modify id f) t).get x) = g (t.get x) := by
  induction ids generalizing t with
  | nil => rfl
  | cons id ids ih => exact (ih _).trans (modify_eq_of_keeps g t id x hf)

/-- It does not matter how often the same change is made to a pair, if a second time
    changes nothing. -/
theorem get_foldl_modify (hf : ∀ pair, f (f pair) = f pair) (t : PairTree) (ids : List PairId) (x : PairId) :
    (ids.foldl (fun t id => t.modify id f) t).get x =
      if x ∈ ids ∧ x < t.size then f (t.get x) else t.get x := by
  induction ids generalizing t with
  | nil => simp
  | cons id ids ih =>
    rw [List.foldl_cons, ih, size_modify, get_modify]
    by_cases hlt : x < t.size
    · by_cases hid : x = id
      · simp [hlt, ← hid, hf]
      · simp [hlt, hid]
    · simp [hlt]

@[simp] theorem add_fst : (t.add pair).1 = t.size := rfl

@[simp] theorem size_add : (t.add pair).2.size = t.size + 1 := Array.size_push ..

theorem get_add : (t.add pair).2.get x = if x = t.size then pair else t.get x := by
  simp only [get, add, Array.getD_eq_getD_getElem?, Array.getElem?_push, size]
  split <;> rfl

@[simp] theorem get_add_self : (t.add pair).2.get t.size = pair := by
  rw [get_add, if_pos rfl]

theorem get_add_of_ne {x : PairId} (h : x ≠ t.size) : (t.add pair).2.get x = t.get x := by
  rw [get_add, if_neg h]

@[simp] theorem size_setParents : (t.setParents ids parent).size = t.size := by
  induction ids generalizing t with
  | nil => rfl
  | cons id ids ih => exact (ih _).trans (size_modify ..)

theorem get_setParents : (t.setParents ids parent).get x =
      if x ∈ ids ∧ x < t.size then { t.get x with parent } else t.get x :=
  get_foldl_modify (f := fun pair => { pair with parent }) (fun _ => rfl) t ids x

theorem setParents_eq_of_keeps (t : PairTree) (ids : List PairId) (parent : Option PairId)
    (x : PairId) (hg : ∀ pair parent, g { pair with parent } = g pair) :
    g ((t.setParents ids parent).get x) = g (t.get x) := by
  rw [get_setParents]
  split
  · exact hg _ _
  · rfl

theorem parent?_setParents : (t.setParents ids parent).parent? x =
      if x ∈ ids ∧ x < t.size then parent else t.parent? x := by
  rw [parent?, get_setParents]
  split <;> rfl

theorem get_takeChildren {t : PairTree} (hid : id < t.size)
    (hchildren : ∀ c ∈ t.children id, c < t.size ∧ c ≠ id) (x : PairId) :
    (t.takeChildren id).2.get x =
      if x = id then { t.get id with children := [] }
      else if x ∈ t.children id then { t.get x with parent := none }
      else t.get x := by
  simp only [takeChildren]
  rw [get_setParents, size_modify]
  by_cases hx : x = id
  · subst hx
    rw [if_pos rfl, if_neg fun h => (hchildren x h.1).2 rfl, get_modify_self hid]
  · rw [if_neg hx, get_modify_of_ne hx]
    by_cases hmem : x ∈ t.children id
    · rw [if_pos ⟨hmem, (hchildren x hmem).1⟩, if_pos hmem]
    · rw [if_neg fun h => hmem h.1, if_neg hmem]

theorem get_adoptChildren {t : PairTree} {parent : PairId} {ids : List PairId} (hparent : parent < t.size)
    (hids : ∀ c ∈ ids, c < t.size ∧ c ≠ parent) (x : PairId) :
    (t.adoptChildren parent ids).get x =
      if x = parent then { t.get parent with children := t.children parent ++ ids }
      else if x ∈ ids then { t.get x with parent := some parent }
      else t.get x := by
  simp only [adoptChildren]
  by_cases hx : x = parent
  · subst hx
    rw [if_pos rfl, get_modify_self (by simpa using hparent), get_setParents, if_neg fun h => (hids x h.1).2 rfl]
    rfl
  · rw [if_neg hx, get_modify_of_ne hx, get_setParents]
    by_cases hmem : x ∈ ids
    · rw [if_pos ⟨hmem, (hids x hmem).1⟩, if_pos hmem]
    · rw [if_neg fun h => hmem h.1, if_neg hmem]

@[simp] theorem size_takeChildren (id : PairId) : (t.takeChildren id).2.size = t.size := by
  simp only [takeChildren, size_setParents, size_modify]

@[simp] theorem size_adoptChildren (parent : PairId) (ids : List PairId) :
    (t.adoptChildren parent ids).size = t.size := by
  simp only [adoptChildren, size_modify, size_setParents]

end PairMarkup.PairTree
