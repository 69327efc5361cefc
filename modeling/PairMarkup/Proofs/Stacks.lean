import PairMarkup.Proofs.Defaults

namespace PairMarkup

open List

/-- A walk with a stack: where it goes on from a pair, which pairs it keeps, and how it adds them to what it found. -/
structure Sweep (σ : Type) where
  next : PairId → List PairId
  keeps : PairId → Bool
  add : σ → PairId → σ

namespace Sweep

variable {σ : Type} (s : Sweep σ) {order : Nat → PairId → List PairId}

/-- The pair on top of the stack, its last one, makes room for the next ones, the first of them on top. -/
def round : List PairId × σ → List PairId × σ
  | (stack, found) =>
    match stack.getLast? with
    | none => (stack, found)
    | some x => (stack.dropLast ++ (s.next x).reverse, if s.keeps x then s.add found x else found)

/-- Round by round the stack gets empty, with that result. -/
def Empties (stack : List PairId) (found result : σ) : Prop :=
  ∃ rounds, s.round^[rounds] (stack, found) = ([], result)

/-- Some pairs are taken from the top of the stack with all that is kept below them. -/
def Pops (order : PairId → List PairId) (xs : List PairId) : Prop :=
  ∀ stack found, ∃ rounds, s.round^[rounds] (stack ++ xs.reverse, found) =
    (stack, (xs.flatMap order).foldl s.add found)

/-- What the walk keeps at or below a pair, in pre-order and down to a depth. -/
def Orders (order : Nat → PairId → List PairId) : Prop :=
  ∀ n x, order (n + 1) x = (if s.keeps x then [x] else []) ++ (s.next x).flatMap (order n)

variable {s}

theorem pops_all {order : PairId → List PairId} {xs : List PairId} (h : ∀ x ∈ xs, s.Pops order [x]) :
    s.Pops order xs := by
  intro stack found
  induction xs generalizing found with
  | nil => exact ⟨0, by simp⟩
  | cons x xs ih =>
    obtain ⟨n, hn⟩ := h x mem_cons_self (stack ++ xs.reverse) found
    obtain ⟨m, hm⟩ := ih (fun y hy => h y (mem_cons_of_mem x hy)) ((order x).foldl s.add found)
    refine ⟨m + n, ?_⟩
    rw [flatMap_singleton, reverse_singleton] at hn
    rw [reverse_cons, ← append_assoc, Function.iterate_add_apply, hn, hm, flatMap_cons, foldl_append]

section

variable {t : PairTree} (horder : s.Orders order) (h : t.Acyclic) (hnext : ∀ x, s.next x ⊆ (t.get x).held)

include horder h hnext

/-- The induction is on what is left of the depth: no pair is deeper than the tree is large. -/
theorem Orders.pops {n : Nat} {x : PairId} (hx : x < t.size) (hn : t.size ≤ n + t.depth x) :
    s.Pops (order n) [x] := by
  induction n generalizing x with
  | zero =>
    have hlt := h.depth_lt_size hx
    omega
  | succ n ih =>
    intro stack found
    have hbelow : s.Pops (order n) (s.next x) := pops_all fun c hc => by
      have hdepth := h.depth_lt_depth (hnext x hc)
      exact ih (h.held_lt_size (hnext x hc)) (by omega)
    obtain ⟨k, hk⟩ := hbelow stack (if s.keeps x then s.add found x else found)
    have hround : s.round (stack ++ [x], found) =
        (stack ++ (s.next x).reverse, if s.keeps x then s.add found x else found) := by
      simp [round]
    refine ⟨k + 1, ?_⟩
    rw [reverse_singleton, Function.iterate_succ_apply, hround, hk, flatMap_singleton, horder, foldl_append]
    split <;> rfl

theorem Orders.ends (xs : List PairId) (hxs : ∀ x ∈ xs, x < t.size) (found : σ) :
    s.Empties xs.reverse found ((xs.flatMap (order t.size)).foldl s.add found) :=
  pops_all (fun x hx => horder.pops h hnext (hxs x hx) (Nat.le_add_right _ _)) [] found

end

end Sweep

namespace PairTree

variable {t : PairTree} {seen : List String} {ids : List PairId}

/-- All pairs, each before what it holds. -/
def pairSweep (t : PairTree) : Sweep (List PairId) where
  next x := (t.get x).held
  keeps _ := true
  add found x := found ++ [x]

/-- The definitions. Modules, documents and definitions are not entered. -/
def definitionSweep (t : PairTree) : Sweep (List PairId) where
  next x := if (t.kind x).isScopeOwner then [] else t.children x
  keeps x := (t.kind x).isAliasDefinition
  add found x := found ++ [x]

/-- A parameter is noted if it has a name and there is none of that name. -/
def declare (t : PairTree) (found : List (String × ParameterInfo)) (x : PairId) : List (String × ParameterInfo) :=
  match (t.get x).name with
  | none => found
  | some name =>
    if (found.map Prod.fst).contains name then found
    else found ++ [(name, ⟨x, t.lacksDefault x, t.takesValue x⟩)]

/-- The parameters. Definitions are not entered. -/
def parameterSweep (t : PairTree) : Sweep (List (String × ParameterInfo)) where
  next x := if (t.kind x).isAliasDefinition then [] else (t.get x).held
  keeps x := (t.kind x).isParameter
  add := t.declare

theorem foldl_declare {found : List (String × ParameterInfo)}
    (hseen : ∀ name, seen.contains name = (found.map Prod.fst).contains name) :
    ids.foldl t.declare found = found ++ firstByName.go t seen ids := by
  induction ids generalizing found seen with
  | nil => exact (append_nil found).symm
  | cons id ids ih =>
    rw [foldl_cons, firstByName.go, declare]
    cases (t.get id).name with
    | none => exact ih hseen
    | some name =>
      dsimp only
      rw [hseen name]
      split
      · exact ih hseen
      · refine (ih fun other => ?_).trans (append_assoc ..)
        rw [contains_cons, hseen other, map_append, contains_append, Bool.or_comm, map_singleton, contains_cons,
          contains_nil, Bool.or_false]

theorem names_firstByName_go : (firstByName.go t seen ids).map Prod.fst =
      ((ids.filterMap fun id => (t.get id).name).filter fun name => !seen.contains name).eraseDups := by
  induction ids generalizing seen with
  | nil => rfl
  | cons id ids ih =>
    rw [firstByName.go, filterMap_cons]
    cases (t.get id).name with
    | none => exact ih
    | some name =>
      dsimp only
      split
      · rename_i hseen
        rw [filter_cons_of_neg (by simpa using hseen), ih]
      · rename_i hseen
        rw [filter_cons_of_pos (by simpa using hseen), eraseDups_cons, map_cons, ih, filter_filter]
        simp only [contains_cons, Bool.not_or]

theorem orders_definitionsTo : t.definitionSweep.Orders t.definitionsTo := by
  intro n x
  change _ = (if (t.kind x).isAliasDefinition then [x] else []) ++
    (if (t.kind x).isScopeOwner then [] else t.children x).flatMap _
  rw [definitionsTo]
  cases t.kind x <;> rfl

theorem orders_bodyTo : t.parameterSweep.Orders fun n x => (t.bodyTo n x).filter fun x => (t.kind x).isParameter := by
  intro n x
  change (t.bodyTo (n + 1) x).filter _ = (if (t.kind x).isParameter then [x] else []) ++
    (if (t.kind x).isAliasDefinition then [] else (t.get x).held).flatMap _
  rw [bodyTo]
  cases hkind : t.kind x <;> simp [Kind.isAliasDefinition, Kind.isParameter, filter_flatMap, hkind]

theorem ite_nil_subset {c : Prop} [Decidable c] {l l' : List PairId} (h : l ⊆ l') : (if c then [] else l) ⊆ l' := by
  split
  · exact nil_subset _
  · exact h

/-- The three walks, each with what it finds and how the stack comes to it: all that is at or below a pair; the
    definitions that an owner brings in; and the parameters of a definition, the first of each name. -/
theorem Acyclic.stack_walks (h : t.Acyclic) : (∀ x < t.size,
      t.preorder x = x :: ((t.children x).flatMap t.preorder ++ ((t.get x).items.getD []).flatMap t.preorder) ∧
      t.pairSweep.Empties [x] [] (t.preorder x)) ∧
    (∀ owner, (t.kind owner).isScopeOwner = true → (∀ x < t.size, t.definitionsTo t.size x =
        if (t.kind x).isAliasDefinition then [x] else if (t.kind x).isScopeOwner then []
        else (t.children x).flatMap (t.definitionsTo t.size)) ∧
      t.hoisted owner = (t.children owner).flatMap (t.definitionsTo t.size) ∧
      t.definitionSweep.Empties (t.children owner).reverse [] (t.hoisted owner)) ∧
    ∀ d, (∀ x < t.size, t.parametersFrom x =
        if (t.kind x).isAliasDefinition then []
        else (if (t.kind x).isParameter then [x] else []) ++ (t.get x).held.flatMap t.parametersFrom) ∧
      t.ownParameters d = (t.get d).held.flatMap t.parametersFrom ∧
      (t.signature d).parameters.map Prod.fst = ((t.ownParameters d).filterMap fun id => (t.get id).name).eraseDups ∧
      (∀ name info, (name, info) ∈ (t.signature d).parameters ↔
        ∃ p, t.declaration? d name = some p ∧ info = ⟨p, t.lacksDefault p, t.takesValue p⟩) ∧
      t.parameterSweep.Empties (t.get d).held.reverse [] (t.signature d).parameters := by
  have hlisted : ∀ ids : List PairId, ids.foldl (fun found x => found ++ [x]) [] = ids := by
    intro ids
    rw [foldl_append_eq_append, nil_append, ← flatMap_def, flatMap_singleton']
  refine ⟨fun x hx => ⟨?_, ?_⟩, fun owner howner => ⟨fun x => h.definitions_eq, if_pos howner, ?_⟩,
    fun d => ⟨fun x => h.parametersFrom_eq, ownParameters_eq t d, ?_, fun name info => mem_signature_iff, ?_⟩⟩
  · rw [h.preorder_eq_cons hx, Pair.held, flatMap_append]
    rfl
  · have horder : t.pairSweep.Orders t.preorderTo := fun n x => rfl
    have hends := horder.ends h (fun x => Subset.refl _) [x] (forall_mem_singleton.mpr hx) []
    rwa [flatMap_singleton, pairSweep, hlisted] at hends
  · have hends := orders_definitionsTo.ends h (fun _ => ite_nil_subset (subset_append_left _ _)) (t.children owner)
      (fun c hc => h.held_lt_size (mem_held_of_mem_children hc)) []
    rw [definitionSweep, hlisted] at hends
    rwa [hoisted, if_pos howner]
  · rw [signature, firstByName, names_firstByName_go]
    simp
  · have hends := orders_bodyTo.ends h (fun _ => ite_nil_subset (Subset.refl _)) (t.get d).held
      (fun c hc => h.held_lt_size hc) []
    rwa [parameterSweep, foldl_declare fun name => rfl, ← filter_flatMap] at hends

end PairTree

/-- A definition with a definition in it, and three parameters of one name. -/
theorem Session.earlyDefaultSource_swept : ∃ parsed resolved,
    (start none).parseAll [earlyDefaultSource] = .ok parsed ∧ parsed.resolve = .ok resolved ∧
      resolved.set.tree.Acyclic ∧
      resolved.set.tree.parameterSweep.Empties (resolved.set.tree.get 1).held.reverse [] [("p", ⟨2, false, true⟩)] := by
  obtain ⟨parsed, resolved, hparse, hresolve, hparameters⟩ := exists_confirmed
    (show confirms none [earlyDefaultSource] (fun _ resolved =>
      (resolved.set.tree.signature 1).parameters = [("p", ⟨2, false, true⟩)]) = true by decide +kernel)
  have hacyclic : resolved.set.tree.Acyclic := (resolved_wellFormed hparse hresolve).acyclic
  obtain ⟨-, -, -, -, hends⟩ := hacyclic.stack_walks.2.2 1
  rw [hparameters] at hends
  exact ⟨parsed, resolved, hparse, hresolve, hacyclic, hends⟩

end PairMarkup
