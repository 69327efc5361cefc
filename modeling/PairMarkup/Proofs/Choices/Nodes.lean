import Mathlib.Data.List.Nodup
import PairMarkup.Choice

namespace PairMarkup.ChoiceTree

open List Option

mutual

/-- Every node but the root, behind the node that it hangs from. What hangs from one node is listed in the
    order of the tree. -/
def edges : ChoiceTree → List (Option PairId × Option PairId)
  | node choice children _ => edgesAmong choice children

/-- The same for all trees that hang from the node `above`. -/
def edgesAmong (above : Option PairId) : List ChoiceTree → List (Option PairId × Option PairId)
  | [] => []
  | tree :: trees => (above, tree.choice) :: (edges tree ++ edgesAmong above trees)

end

def nodes (tree : ChoiceTree) : List (Option PairId) := tree.choice :: tree.edges.map Prod.snd

theorem nodes_node (choice : Option PairId) (children : List ChoiceTree) (errors : List BranchError) :
    (node choice children errors).nodes = choice :: (edgesAmong choice children).map Prod.snd := rfl

theorem map_snd_edgesAmong_cons (above : Option PairId) (tree : ChoiceTree) (trees : List ChoiceTree) :
    (edgesAmong above (tree :: trees)).map Prod.snd = tree.nodes ++ (edgesAmong above trees).map Prod.snd := by
  simp [edgesAmong, nodes]

theorem edgesAmong_append (above : Option PairId) (trees trees' : List ChoiceTree) :
    edgesAmong above (trees ++ trees') = edgesAmong above trees ++ edgesAmong above trees' := by
  induction trees with
  | nil => rfl
  | cons tree trees ih => simp [edgesAmong, ih]

mutual

theorem count_eq_length_edges : ∀ tree : ChoiceTree, tree.count = tree.edges.length
  | node choice children _ => countAmong_eq_length_edges choice children

theorem countAmong_eq_length_edges (above : Option PairId) :
    ∀ trees : List ChoiceTree, countAmong trees = (edgesAmong above trees).length
  | [] => rfl
  | tree :: trees => by
    rw [countAmong, edgesAmong, length_cons, length_append, count_eq_length_edges tree,
      countAmong_eq_length_edges above trees]
    omega

end

mutual

theorem fst_mem_nodes : ∀ (tree : ChoiceTree) {edge}, edge ∈ tree.edges → edge.1 ∈ tree.nodes
  | node choice children errors, edge, hedge => by
    rw [nodes_node, mem_cons]
    exact fst_mem_among choice children hedge

theorem fst_mem_among (above : Option PairId) : ∀ (trees : List ChoiceTree) {edge},
    edge ∈ edgesAmong above trees → edge.1 = above ∨ edge.1 ∈ (edgesAmong above trees).map Prod.snd
  | tree :: trees, edge, hedge => by
    rw [map_snd_edgesAmong_cons, mem_append]
    rw [edgesAmong, mem_cons, mem_append] at hedge
    rcases hedge with rfl | hedge | hedge
    · exact .inl rfl
    · exact .inr (.inl (fst_mem_nodes tree hedge))
    · exact (fst_mem_among above trees hedge).imp_right .inr

end

mutual

theorem not_found {id : PairId} : ∀ {tree : ChoiceTree}, some id ∉ tree.nodes →
    tree.find? id = none ∧ ∀ f, tree.update? id f = none
  | node choice children errors, h => by
    rw [nodes_node, mem_cons, not_or] at h
    simp [find?, update?, Ne.symm h.1, not_foundAmong h.2]

theorem not_foundAmong {id : PairId} {above : Option PairId} : ∀ {trees : List ChoiceTree},
    some id ∉ (edgesAmong above trees).map Prod.snd → findAmong? id trees = none ∧ ∀ f, updateAmong? id f trees = none
  | [], _ => ⟨rfl, fun _ => rfl⟩
  | tree :: trees, h => by
    rw [map_snd_edgesAmong_cons, mem_append, not_or] at h
    simp [findAmong?, updateAmong?, not_found h.1, not_foundAmong h.2]

end

theorem findAmong?_append (id : PairId) (trees trees' : List ChoiceTree) :
    findAmong? id (trees ++ trees') = (findAmong? id trees).or (findAmong? id trees') := by
  induction trees with
  | nil => rfl
  | cons tree trees ih => simp [findAmong?, ih, Option.or_assoc]

/-- The first node `id` of the one tree, in pre-order, is `old`, and the other tree has `new` in its place. The path
    there counts, level by level, the children that are passed by. -/
inductive Replaces (id : PairId) (old new : ChoiceTree) : List Nat → ChoiceTree → ChoiceTree → Prop
  | root : old.choice = some id → Replaces id old new [] old new
  | inside {choice errors before after path tree tree'} : choice ≠ some id →
      some id ∉ (edgesAmong choice before).map Prod.snd → Replaces id old new path tree tree' →
      Replaces id old new (before.length :: path) (node choice (before ++ tree :: after) errors)
        (node choice (before ++ tree' :: after) errors)

mutual

theorem exists_replaces {id : PairId} : ∀ {tree : ChoiceTree}, some id ∈ tree.nodes → ∃ path old,
    ∀ f, ∃ tree', tree.update? id f = some tree' ∧ Replaces id old (f old) path tree tree'
  | node choice children errors, h => by
    by_cases hchoice : choice = some id
    · exact ⟨[], _, fun f => ⟨_, by rw [update?, if_pos hchoice], .root hchoice⟩⟩
    · obtain ⟨before, tree, after, path, old, rfl, hbefore, hall⟩ :=
        exists_replacesAmong ((mem_cons.mp h).resolve_left (Ne.symm hchoice))
      refine ⟨before.length :: path, old, fun f => ?_⟩
      obtain ⟨tree', hupdate, hreplaces⟩ := hall f
      exact ⟨_, by rw [update?, if_neg hchoice, hupdate]; rfl, .inside hchoice hbefore hreplaces⟩

theorem exists_replacesAmong {id : PairId} {above : Option PairId} : ∀ {trees : List ChoiceTree},
    some id ∈ (edgesAmong above trees).map Prod.snd → ∃ before tree after path old,
      trees = before ++ tree :: after ∧ some id ∉ (edgesAmong above before).map Prod.snd ∧
        ∀ f, ∃ tree', updateAmong? id f trees = some (before ++ tree' :: after) ∧
          Replaces id old (f old) path tree tree'
  | tree :: trees, h => by
    by_cases hfirst : some id ∈ tree.nodes
    · obtain ⟨path, old, hall⟩ := exists_replaces hfirst
      refine ⟨[], tree, trees, path, old, rfl, not_mem_nil, fun f => ?_⟩
      obtain ⟨tree', hupdate, hreplaces⟩ := hall f
      exact ⟨tree', by rw [updateAmong?, hupdate]; rfl, hreplaces⟩
    · rw [map_snd_edgesAmong_cons, mem_append] at h
      obtain ⟨before, first, after, path, old, rfl, hbefore, hall⟩ := exists_replacesAmong (h.resolve_left hfirst)
      refine ⟨tree :: before, first, after, path, old, rfl, ?_, fun f => ?_⟩
      · rw [map_snd_edgesAmong_cons, mem_append]
        exact not_or.mpr ⟨hfirst, hbefore⟩
      · obtain ⟨tree', hupdate, hreplaces⟩ := hall f
        exact ⟨tree', by rw [updateAmong?, (not_found hfirst).2, hupdate]; rfl, hreplaces⟩

end

theorem isSome_update?_iff (id : PairId) (f : ChoiceTree → ChoiceTree) (tree : ChoiceTree) :
    (tree.update? id f).isSome ↔ some id ∈ tree.nodes := by
  by_cases h : some id ∈ tree.nodes
  · obtain ⟨path, old, hall⟩ := exists_replaces h
    obtain ⟨tree', hupdate, -⟩ := hall f
    simp [h, hupdate]
  · simp [h, not_found h]

variable {tree tree' old new : ChoiceTree} {id : PairId} {path : List Nat}

theorem exists_replaces_of_update? {f : ChoiceTree → ChoiceTree} (h : tree.update? id f = some tree') :
    ∃ path old, Replaces id old (f old) path tree tree' := by
  obtain ⟨path, old, hall⟩ := exists_replaces ((isSome_update?_iff id f tree).mp (isSome_of_eq_some h))
  obtain ⟨tree'', hupdate, hreplaces⟩ := hall f
  cases h.symm.trans hupdate
  exact ⟨path, old, hreplaces⟩

namespace Replaces

variable (h : Replaces id old new path tree tree')

include h

theorem old_choice : old.choice = some id := by
  induction h with
  | root hchoice => exact hchoice
  | inside _ _ _ ih => exact ih

theorem mem_nodes : some id ∈ tree.nodes := by
  induction h with
  | root hchoice => exact mem_cons.mpr (.inl hchoice.symm)
  | inside _ _ _ ih => simp [nodes_node, edgesAmong_append, map_snd_edgesAmong_cons, ih]

theorem find?_eq : tree.find? id = some old := by
  induction h with
  | root hchoice =>
    obtain ⟨choice, children, errors⟩ := old
    exact if_pos hchoice
  | inside hchoice hbefore _ ih =>
    rw [find?, if_neg hchoice, findAmong?_append, (not_foundAmong hbefore).1, none_or, findAmong?, ih, some_or]

theorem symm (hnew : new.choice = some id) : Replaces id new old path tree' tree := by
  induction h with
  | root => exact .root hnew
  | inside hchoice hbefore _ ih => exact .inside hchoice hbefore ih

theorem choice_eq (hchoice : new.choice = old.choice) : tree'.choice = tree.choice := by
  cases h with
  | root => exact hchoice
  | inside => rfl

theorem edges_eq (hchoice : new.choice = old.choice) (hedges : new.edges = old.edges) : tree'.edges = tree.edges := by
  induction h with
  | root => exact hedges
  | inside _ _ h ih => simp only [edges, edgesAmong_append, edgesAmong, h.choice_eq hchoice, ih]

theorem map_errors_find? {x : PairId} (hx : (new.find? x).map errors = (old.find? x).map errors) :
    (tree'.find? x).map errors = (tree.find? x).map errors := by
  induction h with
  | root => exact hx
  | inside _ _ _ ih =>
    rw [find?, find?, findAmong?_append, findAmong?_append, findAmong?, findAmong?]
    split
    · rfl
    · simp only [map_or, ih]

end Replaces

theorem isSome_find?_iff (id : PairId) (tree : ChoiceTree) : (tree.find? id).isSome ↔ some id ∈ tree.nodes := by
  by_cases h : some id ∈ tree.nodes
  · obtain ⟨path, old, hall⟩ := exists_replaces h
    obtain ⟨tree', -, hreplaces⟩ := hall fun found => found
    simp [h, hreplaces.find?_eq]
  · simp [h, not_found h]

/-- A choice is put behind all that hang from the node `above`, and the other edges stay in their places. -/
def Inserts (above : Option PairId) (id : PairId) (old new : List (Option PairId × Option PairId)) : Prop :=
  ∃ before after, old = before ++ after ∧ new = before ++ (above, some id) :: after ∧ ∀ edge ∈ after, edge.1 ≠ above

namespace Inserts

variable {above : Option PairId} {old new : List (Option PairId × Option PairId)}

section

variable (h : Inserts above id old new)

include h

theorem append_left (edges : List (Option PairId × Option PairId)) :
    Inserts above id (edges ++ old) (edges ++ new) := by
  obtain ⟨before, after, rfl, rfl, hafter⟩ := h
  exact ⟨edges ++ before, after, by simp, by simp, hafter⟩

theorem append_right {edges : List (Option PairId × Option PairId)}
    (hedges : ∀ edge ∈ edges, edge.1 ≠ above) : Inserts above id (old ++ edges) (new ++ edges) := by
  obtain ⟨before, after, rfl, rfl, hafter⟩ := h
  refine ⟨before, after ++ edges, by simp, by simp, fun edge hedge => ?_⟩
  rcases mem_append.mp hedge with hedge | hedge
  · exact hafter edge hedge
  · exact hedges edge hedge

theorem perm : new.Perm ((above, some id) :: old) := by
  obtain ⟨before, after, rfl, rfl, -⟩ := h
  exact perm_middle

theorem mem_iff {edge : Option PairId × Option PairId} : edge ∈ new ↔ edge = (above, some id) ∨ edge ∈ old := by
  rw [h.perm.mem_iff, mem_cons]

/-- What is true of edges with the same node above, in the order of the tree, stays true if it is true of
    all of them and the new one. -/
theorem pairwise {R : Option PairId → Option PairId → Prop}
    (hold : old.Pairwise fun a b => a.1 = b.1 → R a.2 b.2) (hnew : ∀ edge ∈ old, R edge.2 (some id)) :
    new.Pairwise fun a b => a.1 = b.1 → R a.2 b.2 := by
  obtain ⟨before, after, rfl, rfl, hafter⟩ := h
  obtain ⟨hbefore, hrest, hacross⟩ := pairwise_append.mp hold
  refine pairwise_append.mpr ⟨hbefore, .cons (fun edge hedge habove => ?_) hrest, fun a ha b hb => ?_⟩
  · exact absurd habove.symm (hafter edge hedge)
  · rcases mem_cons.mp hb with rfl | hb
    · exact fun _ => hnew a (mem_append_left _ ha)
    · exact hacross a ha b hb

end

end Inserts

theorem addChild_inserts (id : PairId) (tree : ChoiceTree) : (tree.addChild id).choice = tree.choice ∧
      Inserts tree.choice id tree.edges (tree.addChild id).edges := by
  obtain ⟨choice, children, errors⟩ := tree
  refine ⟨rfl, edgesAmong choice children, [], (append_nil _).symm, ?_, ?_⟩
  · exact edgesAmong_append choice children _
  · exact fun edge hedge => absurd hedge not_mem_nil

/-- Where every choice is there once, the new one comes behind all edges from the one that it is added below. -/
theorem Replaces.inserts {e : PairId} (h : Replaces e old (old.addChild id) path tree tree')
    (hnodup : tree.nodes.Nodup) : Inserts (some e) id tree.edges tree'.edges := by
  induction h with
  | root hchoice => exact hchoice ▸ (addChild_inserts id old).2
  | @inside choice errors before after path tree tree' hne _ h ih =>
    rw [nodes_node, edgesAmong_append, map_append, map_snd_edgesAmong_cons, nodup_cons, nodup_append,
      nodup_append] at hnodup
    obtain ⟨-, -, ⟨htree, -, hdisjoint⟩, -⟩ := hnodup
    simp only [edges, edgesAmong_append, edgesAmong, h.choice_eq (addChild_inserts id old).1]
    -- no other tree has the node, so nothing that comes behind hangs from it
    refine .append_left (.append_left (.append_right (ih htree) fun edge hedge heq => ?_) [(choice, tree.choice)]) _
    rcases fst_mem_among choice after hedge with hedge | hedge
    · exact hne (hedge.symm.trans heq)
    · exact hdisjoint _ h.mem_nodes _ hedge heq.symm

theorem insert_inserts (hroot : tree.choice = none) (hnodup : tree.nodes.Nodup)
    {enclosing : Option PairId} (hknown : enclosing ∈ tree.nodes) (id : PairId) :
    (tree.insert enclosing id).choice = none ∧ Inserts enclosing id tree.edges (tree.insert enclosing id).edges := by
  cases enclosing with
  | none =>
    obtain ⟨hchoice, hinserts⟩ := addChild_inserts id tree
    rw [hroot] at hchoice hinserts
    exact ⟨hchoice, hinserts⟩
  | some e =>
    obtain ⟨path, old, hall⟩ := exists_replaces hknown
    obtain ⟨tree', hupdate, hreplaces⟩ := hall (addChild id)
    rw [insert, bind_some, hupdate, getD_some]
    exact ⟨(hreplaces.choice_eq (addChild_inserts id old).1).trans hroot, hreplaces.inserts hnodup⟩

/-- More is noted at some choices. -/
structure Extends (old new : ChoiceTree) : Prop where
  nodes_eq : new.nodes = old.nodes
  errors : ∀ id found, old.find? id = some found →
    ∃ found', new.find? id = some found' ∧ ∀ error ∈ found.errors, error ∈ found'.errors

theorem Extends.refl (tree : ChoiceTree) : Extends tree tree :=
  ⟨rfl, fun _ found hfound => ⟨found, hfound, fun _ => id⟩⟩

theorem Extends.trans {a b c : ChoiceTree} (h : Extends a b) (h' : Extends b c) : Extends a c where
  nodes_eq := h'.nodes_eq.trans h.nodes_eq
  errors id found hfound := by
    obtain ⟨found', hfound', hsub⟩ := h.errors id found hfound
    obtain ⟨found'', hfound'', hsub'⟩ := h'.errors id found' hfound'
    exact ⟨found'', hfound'', fun error herror => hsub' error (hsub error herror)⟩

theorem extends_record? {branch : PairId} {diagnostic : Diagnostic}
    (h : tree.record? id branch diagnostic = some tree') : Extends tree tree' := by
  obtain ⟨path, old, hreplaces⟩ := exists_replaces_of_update? h
  obtain ⟨choice, children, errors⟩ := old
  have hold := hreplaces.old_choice
  refine ⟨by rw [nodes, nodes, hreplaces.choice_eq rfl, hreplaces.edges_eq rfl rfl], fun x found hfound => ?_⟩
  by_cases hx : x = id
  · subst hx
    cases hfound.symm.trans hreplaces.find?_eq
    exact ⟨_, (hreplaces.symm hold).find?_eq, fun error => mem_append_left _⟩
  · have hself : choice ≠ some x := fun heq => hx (some.inj (heq.symm.trans hold))
    have hmap := hreplaces.map_errors_find? (x := x) (by simp [addError, find?, hself])
    rw [hfound, map_some, map_eq_some_iff] at hmap
    obtain ⟨found', hfound', heq⟩ := hmap
    exact ⟨found', hfound', fun error herror => heq ▸ herror⟩

/-- A diagnostic of an alternative is noted at its choice, if that is there. -/
theorem exists_record? (h : some id ∈ tree.nodes) (branch : PairId) (diagnostic : Diagnostic) : ∃ tree' found,
    tree.record? id branch diagnostic = some tree' ∧
      tree'.find? id = some found ∧ ⟨branch, diagnostic⟩ ∈ found.errors := by
  obtain ⟨path, old, hall⟩ := exists_replaces h
  obtain ⟨tree', hupdate, hreplaces⟩ := hall (addError ⟨branch, diagnostic⟩)
  obtain ⟨choice, children, errors⟩ := old
  exact ⟨tree', _, hupdate, (hreplaces.symm hreplaces.old_choice).find?_eq, mem_append_right _ (mem_singleton_self _)⟩

end PairMarkup.ChoiceTree
