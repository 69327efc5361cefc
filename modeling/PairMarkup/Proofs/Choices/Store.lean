import PairMarkup.Proofs.Choices.Nodes

namespace PairMarkup.ChoiceTree

open List Option

/-- The node at the end of a path, which counts the children that are passed by at each level. -/
def at? : ChoiceTree → List Nat → Option ChoiceTree
  | tree, [] => some tree
  | tree, i :: path => tree.children[i]?.bind (at? · path)

/-- What the node at the end of a path holds itself. -/
def label? (tree : ChoiceTree) (path : List Nat) : Option (Option PairId × List BranchError) :=
  (tree.at? path).map fun node => (node.choice, node.errors)

variable {tree tree' old new : ChoiceTree} {id : PairId} {path p : List Nat}

theorem at?_append (p q : List Nat) : tree.at? (p ++ q) = (tree.at? p).bind (at? · q) := by
  induction p generalizing tree with
  | nil => rfl
  | cons i p ih => simp [at?, ih, Option.bind_assoc]

theorem choice_mem_nodes {found : ChoiceTree} (h : tree.at? p = some found) : found.choice ∈ tree.nodes := by
  induction p generalizing tree with
  | nil =>
    cases h
    exact mem_cons_self
  | cons i p ih =>
    obtain ⟨choice, children, errors⟩ := tree
    obtain ⟨child, hchild, hp⟩ := bind_eq_some_iff.mp h
    obtain ⟨before, after, rfl⟩ := append_of_mem (mem_of_getElem? hchild)
    simp [nodes_node, edgesAmong_append, map_snd_edgesAmong_cons, ih hp]

theorem label?_addChild (tree : ChoiceTree) (id : PairId) (p : List Nat) : (tree.addChild id).label? p =
    if p = [tree.children.length] then some (some id, []) else tree.label? p := by
  obtain ⟨above, trees, errors⟩ := tree
  cases p with
  | nil => rfl
  | cons i p =>
    simp only [label?, addChild, at?, children]
    rcases Nat.lt_trichotomy i trees.length with hi | rfl | hi
    · simp [getElem?_append_left hi, Nat.ne_of_lt hi]
    · cases p <;> simp [at?, children, choice, ChoiceTree.errors]
    · have hnone : (trees ++ [node (some id) [] []])[i]? = none := getElem?_eq_none (by simp; omega)
      simp [hnone, Nat.le_of_lt hi, Nat.ne_of_gt hi]

theorem label?_addError (tree : ChoiceTree) (error : BranchError) (p : List Nat) : (tree.addError error).label? p =
    (tree.label? p).map (Prod.map (·) (· ++ if p = [] then [error] else [])) := by
  obtain ⟨above, trees, errors⟩ := tree
  cases p <;> simp [label?, addError, at?, children, choice, ChoiceTree.errors, Prod.map]

namespace Replaces

variable (h : Replaces id old new path tree tree')

include h

theorem at?_eq : tree.at? path = some old ∧ tree'.at? path = some new := by
  induction h with
  | root => exact ⟨rfl, rfl⟩
  | inside _ _ _ ih => simpa [at?, children] using ih

theorem nodes_perm {x : Option PairId} (hnew : new.nodes ~ x :: old.nodes) : tree'.nodes ~ x :: tree.nodes := by
  induction h with
  | root => exact hnew
  | inside _ _ _ ih =>
    simp only [nodes_node, edgesAmong_append, map_append, map_snd_edgesAmong_cons]
    exact (((ih.append_right _).append_left _).trans perm_middle |>.cons _).trans (.swap ..)

theorem label?_eq (hp : ¬path <+: p) : tree'.label? p = tree.label? p := by
  induction h generalizing p with
  | root => exact absurd nil_prefix hp
  | @inside _ _ before _ _ _ _ _ _ _ ih =>
    cases p with
    | nil => rfl
    | cons i p =>
      rw [cons_prefix_cons, not_and] at hp
      simp only [label?, at?, children] at ih ⊢
      rcases Nat.lt_trichotomy i before.length with hi | rfl | hi
      · rw [getElem?_append_left hi, getElem?_append_left hi]
      · simpa using ih (hp rfl)
      · obtain ⟨k, rfl⟩ := Nat.exists_eq_add_of_lt hi
        simp [Nat.add_assoc, getElem?_append_right]

/-- A path that comes before, in lexicographic order, does not lead to `id`. -/
theorem choice_ne (hp : Lex (· < ·) p path) : (tree.at? p).bind choice ≠ some id := by
  intro heq
  obtain ⟨found, hfound, hchoice⟩ := bind_eq_some_iff.mp heq
  induction h generalizing p with
  | root => cases hp
  | inside hne hbefore _ ih =>
    cases hp with
    | nil =>
      cases hfound
      exact hne hchoice
    | rel hlt =>
      obtain ⟨child, hchild, hp⟩ := bind_eq_some_iff.mp hfound
      rw [children, getElem?_append_left hlt] at hchild
      obtain ⟨front, back, rfl⟩ := append_of_mem (mem_of_getElem? hchild)
      have hmem := choice_mem_nodes hp
      simp_all [edgesAmong_append, map_snd_edgesAmong_cons]
    | cons hlt =>
      simp [at?, children] at hfound
      exact ih hlt (by simp [hfound, hchoice]) hfound

theorem label?_append (q : List Nat) : tree.label? (path ++ q) = old.label? q := by
  simp [label?, at?_append, h.at?_eq]

theorem label?_of {labels : List Nat → Option (Option PairId × List BranchError)}
    (hnew : ∀ q, labels (path ++ q) = new.label? q) (hother : ∀ p, ¬path <+: p → labels p = tree.label? p)
    (p : List Nat) : tree'.label? p = labels p := by
  by_cases hp : path <+: p
  · obtain ⟨q, rfl⟩ := hp
    simp [hnew, label?, at?_append, h.at?_eq]
  · rw [hother p hp, h.label?_eq hp]

end Replaces

/-- The path leads to the first node `id` in pre-order. Who reads the choice is given this node, and who changes it
    changes this node and nothing above or beside it. -/
structure FirstAt (tree : ChoiceTree) (id : PairId) (path : List Nat) : Prop where
  choice_eq : (tree.at? path).bind choice = some id
  first : ∀ p, Lex (· < ·) p path → (tree.at? p).bind choice ≠ some id
  find?_eq : tree.find? id = tree.at? path
  update? : ∀ f, ∃ tree', tree.update? id f = some tree' ∧ tree'.at? path = (tree.at? path).map f ∧
    ∀ p, ¬path <+: p → tree'.label? p = tree.label? p

theorem firstAt_of_replaces
    (h : ∀ f, ∃ tree', tree.update? id f = some tree' ∧ Replaces id old (f old) path tree tree') :
    tree.FirstAt id path := by
  obtain ⟨tree', -, hid⟩ := h fun found => found
  refine ⟨by simp [hid.at?_eq, hid.old_choice], fun p => hid.choice_ne, ?_, fun f => ?_⟩
  · rw [hid.find?_eq, hid.at?_eq.1]
  · obtain ⟨tree', hupdate, hreplaces⟩ := h f
    exact ⟨tree', hupdate, by simp [hreplaces.at?_eq], fun p => hreplaces.label?_eq⟩

/-- A choice is added below the first node of the one that encloses it if that is there, and below the root if not. -/
theorem insert_cases (tree : ChoiceTree) (enclosing : Option PairId) (id : PairId) :
    (∃ e path old, enclosing = some e ∧ tree.FirstAt e path ∧
      Replaces e old (old.addChild id) path tree (tree.insert enclosing id)) ∨
    (∀ e, enclosing = some e → some e ∉ tree.nodes) ∧ tree.insert enclosing id = tree.addChild id := by
  cases enclosing with
  | none => exact .inr ⟨by simp, rfl⟩
  | some e =>
    by_cases h : some e ∈ tree.nodes
    · obtain ⟨path, old, hall⟩ := exists_replaces h
      obtain ⟨tree', hupdate, hreplaces⟩ := hall (addChild id)
      refine .inl ⟨e, path, old, rfl, firstAt_of_replaces hall, ?_⟩
      rwa [insert, bind_some, hupdate, getD_some]
    · exact .inr ⟨fun _ he => some.inj he ▸ h, by rw [insert, bind_some, (not_found h).2, getD_none]⟩

theorem nodes_insert (tree : ChoiceTree) (enclosing : Option PairId) (id : PairId) :
    (tree.insert enclosing id).nodes ~ some id :: tree.nodes := by
  have hchild (tree : ChoiceTree) : (tree.addChild id).nodes ~ some id :: tree.nodes := by
    obtain ⟨hchoice, hinserts⟩ := addChild_inserts id tree
    rw [nodes, hchoice]
    exact ((hinserts.perm.map Prod.snd).cons _).trans (.swap ..)
  rcases tree.insert_cases enclosing id with ⟨e, path, old, -, -, h⟩ | ⟨-, heq⟩
  · exact h.nodes_perm (hchild old)
  · rw [heq]
    exact hchild tree

/-- What one may ask of a tree. -/
inductive Request where
  | insert (enclosing : Option PairId) (id : PairId)
  | record (id branch : PairId) (diagnostic : Diagnostic)

namespace Request

def added? : Request → Option PairId
  | insert _ id => some id
  | record .. => none

/-- The tree after a request. It stays as it is if a diagnostic belongs to an unknown choice. -/
def serve (tree : ChoiceTree) : Request → ChoiceTree
  | insert enclosing id => tree.insert enclosing id
  | record id branch diagnostic => (tree.record? id branch diagnostic).getD tree

end Request

/-- The tree is a store of the choices that were added. Under any next request an unknown choice is reported, a
    diagnostic goes to one label, and a choice becomes one more label behind the children of one node. -/
structure Stores (tree : ChoiceTree) (added : List PairId) : Prop where
  count_eq : tree.count = added.length
  isSome_find?_iff : ∀ id, (tree.find? id).isSome ↔ id ∈ added
  isSome_update?_iff : ∀ id f, (tree.update? id f).isSome ↔ id ∈ added
  reaches : ∀ id ∈ added, ∃ path, tree.FirstAt id path
  isSome_record?_iff : ∀ id branch diagnostic, (tree.record? id branch diagnostic).isSome ↔ id ∈ added
  record? : ∀ id branch diagnostic tree', tree.record? id branch diagnostic = some tree' → ∃ path,
    tree.FirstAt id path ∧ ∀ p, tree'.label? p =
      (tree.label? p).map (Prod.map (·) (· ++ if p = path then [⟨branch, diagnostic⟩] else []))
  insert : ∀ enclosing id, ∃ path above, tree.at? path = some above ∧
    ((∃ e, enclosing = some e ∧ tree.FirstAt e path) ∨ (∀ e, enclosing = some e → e ∉ added) ∧ path = []) ∧
    ∀ p, (tree.insert enclosing id).label? p =
      if p = path ++ [above.children.length] then some (some id, []) else tree.label? p

/-- Step by step, the nodes are the root and the choices that were added. -/
theorem nodes_foldl_serve (requests : List Request) (tree : ChoiceTree) : (requests.foldl Request.serve tree).nodes ~
    (requests.filterMap Request.added?).map some ++ tree.nodes := by
  induction requests generalizing tree with
  | nil => rfl
  | cons request requests ih =>
    cases request with
    | insert enclosing id =>
      exact (ih _).trans (((nodes_insert tree enclosing id).append_left _).trans perm_middle)
    | record id branch diagnostic =>
      refine (ih _).trans (.of_eq ?_)
      rw [Request.serve]
      cases hrecord : tree.record? id branch diagnostic with
      | none => rfl
      | some tree' => exact congrArg _ (extends_record? hrecord).nodes_eq

theorem stores_of_requests (requests : List Request) :
    (requests.foldl Request.serve empty).Stores (requests.filterMap Request.added?) := by
  have hnodes := nodes_foldl_serve requests empty
  generalize requests.foldl Request.serve empty = tree at hnodes ⊢
  generalize requests.filterMap Request.added? = added at hnodes ⊢
  have hmem (id : PairId) : some id ∈ tree.nodes ↔ id ∈ added := by
    rw [hnodes.mem_iff]
    simp [nodes, empty, edges, edgesAmong, choice]
  refine ⟨?_, fun id => (isSome_find?_iff id tree).trans (hmem id),
    fun id f => (isSome_update?_iff id f tree).trans (hmem id), fun id hid => ?_,
    fun id _ _ => (isSome_update?_iff id _ tree).trans (hmem id), fun id branch diagnostic tree' h => ?_,
    fun enclosing id => ?_⟩
  · have hlength := hnodes.length_eq
    simpa [nodes, empty, edges, edgesAmong, ← count_eq_length_edges] using hlength
  · obtain ⟨path, old, hall⟩ := exists_replaces ((hmem id).mpr hid)
    exact ⟨path, firstAt_of_replaces hall⟩
  · obtain ⟨path, old, hall⟩ := exists_replaces ((isSome_update?_iff id _ tree).mp (isSome_of_eq_some h))
    obtain ⟨changed, hupdate, hreplaces⟩ := hall (addError ⟨branch, diagnostic⟩)
    cases h.symm.trans hupdate
    refine ⟨path, firstAt_of_replaces hall, hreplaces.label?_of (fun q => ?_) fun p hp => ?_⟩
    · simp [label?_addError, hreplaces.label?_append]
    · have hne : p ≠ path := fun heq => hp (heq ▸ prefix_refl p)
      simp [hne]
  · simp only [← hmem]
    rcases tree.insert_cases enclosing id with ⟨e, path, old, he, hfirst, h⟩ | ⟨hunknown, heq⟩
    · refine ⟨path, old, h.at?_eq.1, .inl ⟨e, he, hfirst⟩, h.label?_of (fun q => ?_) fun p hp => ?_⟩
      · simp [label?_addChild, h.label?_append]
      · refine if_neg ?_
        rintro rfl
        exact hp (prefix_append ..)
    · exact ⟨[], tree, rfl, .inr ⟨hunknown, rfl⟩, heq ▸ tree.label?_addChild id⟩

end PairMarkup.ChoiceTree
