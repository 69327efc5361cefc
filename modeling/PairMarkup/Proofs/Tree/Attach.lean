import PairMarkup.Proofs.Tree.WellFormed

namespace PairMarkup.PairTree

open List

/-- A pair of the tree that has no parent and holds nothing. -/
structure Detached (t : PairTree) (x : PairId) : Prop where
  lt_size : x < t.size
  parent_eq : t.parent? x = none
  held_eq : (t.get x).held = []

variable {t' t : PairTree} {x : PairId}

/-- A new pair without neighbours is detached, and so is every pair that was so
    before. -/
theorem Detached.add (h : t.Detached x) (pair : Pair) : (t.add pair).2.Detached x := by
  have hget : (t.add pair).2.get x = t.get x := get_add_of_ne t pair h.lt_size.ne
  refine ⟨?_, ?_, ?_⟩
  · rw [size_add]
    exact Nat.lt_succ_of_lt h.lt_size
  · rw [parent?, hget]
    exact h.parent_eq
  · rw [hget]
    exact h.held_eq

theorem detached_add (t : PairTree) {pair : Pair} (hparent : pair.parent = none)
    (hheld : pair.held = []) : (t.add pair).2.Detached t.size := by
  refine ⟨?_, ?_, ?_⟩
  · rw [size_add]
    exact Nat.lt_succ_self _
  · rw [parent?, get_add_self]
    exact hparent
  · rw [get_add_self]
    exact hheld

variable {parent child : PairId}

theorem append_eq_ok (h : t.append parent child = .ok t') :
    ∃ isChoice, t' = (t.modify child fun p => { p with parent := some parent, isChoice }).modify parent
      fun p => { p with children := p.children ++ [child] } := by
  simp only [append] at h
  split at h
  · cases h
  · split at h
    · cases h
    · exact ⟨_, (Except.ok.inj h).symm⟩

/-- Appending a pair touches its parent and its choice mark, and the children of
    the pair that it is appended to. -/
theorem append_eq_of_keeps {α : Type} (g : Pair → α) (h : t.append parent child = .ok t') (x : PairId)
    (hg : ∀ pair parent children isChoice, g { pair with parent, children, isChoice } = g pair) :
    g (t'.get x) = g (t.get x) := by
  obtain ⟨isChoice, rfl⟩ := append_eq_ok h
  refine (modify_eq_of_keeps g _ parent x ?_).trans (modify_eq_of_keeps g t child x ?_)
  · exact fun pair => hg pair pair.parent _ pair.isChoice
  · exact fun pair => hg pair _ pair.children isChoice

theorem parent?_append (h : t.append parent child = .ok t') (hx : x ≠ child) : t'.parent? x = t.parent? x := by
  obtain ⟨isChoice, rfl⟩ := append_eq_ok h
  refine (modify_eq_of_keeps Pair.parent _ parent x ?_).trans ?_
  · exact fun _ => rfl
  · rw [get_modify_of_ne hx, parent?]

theorem size_append (h : t.append parent child = .ok t') : t'.size = t.size := by
  obtain ⟨isChoice, rfl⟩ := append_eq_ok h
  rw [size_modify, size_modify]

theorem held_perm_of_children (pair : Pair) (child : PairId) {valueKind : ValueKind} :
    ({ pair with children := pair.children ++ [child], valueKind } : Pair).held.Perm (pair.held ++ [child]) := by
  simp only [Pair.held, append_assoc]
  exact perm_append_comm.append_left _

namespace WellFormed

variable {t t' : PairTree} {owner : PairId} {ids : List PairId} {f : Pair → Pair}

section

variable (hwf : t.WellFormed)

include hwf

/-- Only the links count, and not the order of what a pair holds. -/
theorem of_same_links (hparent : ∀ x, t'.parent? x = t.parent? x)
    (hheld : ∀ x, (t'.get x).held.Perm (t.get x).held) : t'.WellFormed where
  held_nodup p := (hheld p).nodup_iff.mpr (hwf.held_nodup p)
  mem_held_iff {c p} := by
    rw [(hheld p).mem_iff, hparent]
    exact hwf.mem_held_iff
  grounded := by
    obtain ⟨rank, hrank⟩ := hwf.grounded
    exact ⟨rank, fun c p h => hrank c p (hparent c ▸ h)⟩

theorem modify (id : PairId)
    (hparent : ∀ pair, (f pair).parent = pair.parent) (hheld : ∀ pair, (f pair).held = pair.held) :
    (t.modify id f).WellFormed :=
  hwf.of_same_links (fun x => modify_eq_of_keeps Pair.parent t id x hparent)
    fun x => .of_eq (modify_eq_of_keeps Pair.held t id x hheld)

theorem add {pair : Pair} (hparent : pair.parent = none) (hheld : pair.held = []) : (t.add pair).2.WellFormed := by
  have hdefault : t.get t.size = default := get_eq_default le_rfl
  refine hwf.of_same_links (fun x => ?_) fun x => .of_eq ?_
  · by_cases hx : x = t.size
    · subst hx
      rw [parent?, parent?, get_add_self, hparent, hdefault]
      rfl
    · rw [parent?, parent?, get_add_of_ne t pair hx]
  · by_cases hx : x = t.size
    · subst hx
      rw [get_add_self, hheld, hdefault]
      rfl
    · rw [get_add_of_ne t pair hx]

theorem attach (hnodup : ids.Nodup) (hids : ∀ c ∈ ids, t.Detached c) (howner : owner ∉ ids)
    (hparent : ∀ x, t'.parent? x = if x ∈ ids then some owner else t.parent? x) (hheld : ∀ x, (t'.get x).held.Perm
      (if x = owner then (t.get x).held ++ ids else (t.get x).held)) : t'.WellFormed where
  held_nodup p := by
    rw [(hheld p).nodup_iff]
    split
    · refine (hwf.held_nodup p).append hnodup fun c hc hmem => ?_
      rw [hwf.mem_held_iff, (hids c hmem).parent_eq] at hc
      cases hc
    · exact hwf.held_nodup p
  mem_held_iff {c p} := by
    rw [(hheld p).mem_iff, hparent]
    by_cases hc : c ∈ ids
    · have hnone : c ∉ (t.get p).held := by
        rw [hwf.mem_held_iff, (hids c hc).parent_eq]
        exact nofun
      by_cases hp : p = owner
      · simp [hp, hc]
      · simp [hp, hc, hnone, Ne.symm hp]
    · by_cases hp : p = owner
      · simp [hp, hc, hwf.mem_held_iff]
      · simp [hp, hc, hwf.mem_held_iff]
  grounded := by
    -- The new pairs come right below their owner; nothing is below them.
    obtain ⟨rank, hrank⟩ := hwf.grounded
    refine ⟨fun x => if x ∈ ids then rank owner + 1 else rank x, fun c p h => ?_⟩
    rw [hparent] at h
    by_cases hc : c ∈ ids
    · rw [if_pos hc] at h
      cases h
      simp only [if_neg howner, if_pos hc]
      exact Nat.lt_succ_self _
    · rw [if_neg hc] at h
      have hp : p ∉ ids := by
        intro hp
        have hmem := hwf.mem_held_iff.mpr h
        rw [(hids p hp).held_eq] at hmem
        cases hmem
      simp only [if_neg hp, if_neg hc]
      exact hrank c p h

theorem attach_modify (hnodup : ids.Nodup)
    (hids : ∀ c ∈ ids, t.Detached c) (howner : owner < t.size) (hne : owner ∉ ids) (hsize : t'.size = t.size)
    (hparent : ∀ x, t'.parent? x = if x ∈ ids then some owner else t.parent? x)
    (hheld : ∀ x, (t'.get x).held = (t.get x).held) (hf : ∀ pair, (f pair).parent = pair.parent)
    (htake : (f (t'.get owner)).held.Perm ((t'.get owner).held ++ ids)) :
    (t'.modify owner f).WellFormed := by
  refine hwf.attach hnodup hids hne ?_ ?_
  · intro x
    rw [← hparent x]
    exact modify_eq_of_keeps Pair.parent t' owner x hf
  · intro x
    by_cases hx : x = owner
    · subst hx
      rw [get_modify_self (hsize ▸ howner), if_pos rfl, ← hheld x]
      exact htake
    · rw [get_modify_of_ne hx, if_neg hx, hheld x]

theorem append {parent child : PairId} (hparent : parent < t.size)
    (hchild : t.Detached child) (hne : parent ≠ child) (h : t.append parent child = .ok t') :
    t'.WellFormed := by
  obtain ⟨isChoice, rfl⟩ := append_eq_ok h
  refine hwf.attach_modify (nodup_singleton child) (by simpa using hchild) hparent (by simpa using hne) ?_ ?_ ?_ ?_ ?_
  · exact size_modify ..
  · intro x
    by_cases hx : x = child
    · subst hx
      rw [parent?, get_modify_self hchild.lt_size, if_pos (mem_singleton_self _)]
    · rw [parent?, get_modify_of_ne hx, if_neg (by simpa using hx), parent?]
  · exact fun x => modify_eq_of_keeps Pair.held t child x fun _ => rfl
  · exact fun _ => rfl
  · exact held_perm_of_children _ child

end

theorem parent?_setParents_detached (hids : ∀ c ∈ ids, t.Detached c) (x : PairId) :
    (t.setParents ids (some owner)).parent? x = if x ∈ ids then some owner else t.parent? x := by
  rw [parent?_setParents]
  by_cases hx : x ∈ ids
  · rw [if_pos ⟨hx, (hids x hx).lt_size⟩, if_pos hx]
  · rw [if_neg (fun h => hx h.1), if_neg hx]

theorem setValueReference (hwf : t.WellFormed) {owner reference : PairId} (howner : owner < t.size)
    (hreference : t.Detached reference) (hne : owner ≠ reference) :
    (t.setValueReference owner reference).WellFormed := by
  have hids : ∀ c ∈ [reference], t.Detached c := by simpa using hreference
  exact hwf.attach_modify (nodup_singleton reference) hids howner (by simpa using hne)
    (size_setParents ..) (parent?_setParents_detached hids)
    (fun x => setParents_eq_of_keeps Pair.held t _ _ x fun _ _ => rfl) (fun _ => rfl)
    (held_perm_of_children _ reference)

/-- A value is put together only once: parts that were there before would be lost. -/
theorem setItems (hwf : t.WellFormed) {items : List PairId} (howner : owner < t.size)
    (hnone : (t.get owner).items = none) (hnodup : items.Nodup)
    (hitems : ∀ c ∈ items, t.Detached c) (hne : owner ∉ items) :
    (t.setItems owner items).WellFormed := by
  refine hwf.attach_modify hnodup hitems howner hne (size_setParents ..) (parent?_setParents_detached hitems)
    (fun x => setParents_eq_of_keeps Pair.held t _ _ x fun _ _ => rfl) (fun _ => rfl) (.of_eq ?_)
  have hitems : ((t.setParents items (some owner)).get owner).items = none :=
    (setParents_eq_of_keeps Pair.items t _ _ owner fun _ _ => rfl).trans hnone
  simp only [Pair.held, hitems, Option.getD_some, Option.getD_none, append_nil]

end WellFormed

end PairMarkup.PairTree
