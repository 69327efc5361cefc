import PairMarkup.Proofs.Resolution.Config
import PairMarkup.Proofs.Resolution.Ties
import PairMarkup.Proofs.Tree.Split

namespace PairMarkup

open List

/-- A pair that is yet to be visited. -/
structure Visit where
  /-- The aliases that are known around the pair. -/
  aliases : String → Option PairId
  chain : List PairId
  /-- The definitions that will not be left before, innermost first. -/
  opens : List PairId
  id : PairId

/-- The aliases that are known inside of a pair, given those around it. -/
def PairTree.within (t : PairTree) (id : PairId) (aliases : String → Option PairId) (name : String) : Option PairId :=
  (t.hoistedAs? name id).or (aliases name)

/-- What is to be visited after a pair: all that it holds. -/
def Visit.below (v : Visit) (t : PairTree) : List Visit :=
  (t.get v.id).held.map fun c => { v with aliases := t.within v.id v.aliases, id := c }

/-- Which aliases are known does not depend on default namespaces. -/
def Scope.aliases (scope : Scope) (name : String) : Option PairId := scope.aliasFor? name

namespace WalkAction

/-- The definitions that are yet to be left, innermost first. -/
def opens : List WalkAction → List PairId
  | [] => []
  | leave id _ :: rest => id :: opens rest
  | _ :: rest => opens rest

/-- The pairs that are yet to be visited, those that were left for later included. -/
def pending (t : PairTree) : List WalkAction → Option (List Deferred) → List Visit
  | [], _ => []
  | visit _ context id :: rest, later =>
    ⟨context.scope.aliases, context.chain, opens rest, id⟩ :: pending t rest later
  | held _ context id :: rest, later =>
    ((t.get id).held.map fun c => ⟨context.scope.aliases, context.chain, opens rest, c⟩) ++ pending t rest later
  | nested _ _ :: rest, later =>
    ((later.getD []).map fun d => ⟨d.scope.aliases, [], opens rest, d.definition⟩) ++ pending t rest none
  | leave _ outer :: rest, _ => pending t rest outer
  | settle _ :: rest, later => pending t rest later
  | check _ _ _ :: rest, later => pending t rest later

/-- Definitions are left for later only where somebody comes back to them. -/
def Disciplined : List WalkAction → Option (List Deferred) → Prop
  | [], later => later = none
  | nested _ _ :: rest, later => later ≠ none ∧ Disciplined rest none
  | leave _ outer :: rest, later => later = none ∧ Disciplined rest outer
  | _ :: rest, later => Disciplined rest later

variable {t t' : PairTree} {rest : List WalkAction} {later : Option (List Deferred)} (n : Nat)
  (visits : List (Context × PairId)) {deferred : List Deferred}

@[simp] theorem opens_visitAll (rest : List WalkAction) : opens (visitAll n visits ++ rest) = opens rest := by
  induction visits with
  | nil => rfl
  | cons v visits ih => exact ih

@[simp] theorem disciplined_visitAll : Disciplined (visitAll n visits ++ rest) later ↔ Disciplined rest later := by
  induction visits with
  | nil => rfl
  | cons v visits ih => exact ih

/-- What is left for later does not matter, if only something may be. -/
theorem disciplined_some {deferred' : List Deferred} (h : Disciplined rest (some deferred)) :
    Disciplined rest (some deferred') := by
  induction rest with
  | nil => cases h
  | cons action rest ih =>
    cases action with
    | nested n context => exact ⟨nofun, h.2⟩
    | leave id outer => cases h.1
    | _ => exact ih h

theorem pending_visitAll : pending t (visitAll n visits ++ rest) later =
      (visits.map fun v => ⟨v.1.scope.aliases, v.1.chain, opens rest, v.2⟩) ++ pending t rest later := by
  induction visits with
  | nil => rfl
  | cons v visits ih =>
    rw [map_cons, cons_append, ← ih, ← opens_visitAll n visits]
    rfl

/-- The branch of a visit aside, all that a pair holds is visited in one context. -/
theorem pending_visits (context : Context) (id : PairId) :
    pending t (visitAll n (Progress.visits t context id) ++ rest) later =
      ((t.get id).held.map fun c => ⟨context.scope.aliases, context.chain, opens rest, c⟩) ++
        pending t rest later := by
  rw [pending_visitAll]
  simp only [Progress.visits, Pair.held, map_append, map_map]
  rfl

theorem pending_postpone (hdisciplined : Disciplined rest later) (hlater : later = some deferred) (d : Deferred) :
    (pending t rest (some (deferred ++ [d]))).Perm
      (⟨d.scope.aliases, [], opens rest, d.definition⟩ :: pending t rest later) := by
  subst hlater
  induction rest with
  | nil => cases hdisciplined
  | cons action rest ih =>
    cases action with
    | visit n context id => exact (List.Perm.cons _ (ih hdisciplined)).trans (.swap ..)
    | held n context id =>
      refine (List.Perm.append_left _ (ih hdisciplined)).trans ?_
      exact perm_middle
    | settle id => exact ih hdisciplined
    | check branch usage definition => exact ih hdisciplined
    | nested n context =>
      simp only [pending, opens, Option.getD_some, map_append, map_cons, map_nil, append_assoc]
      exact perm_middle
    | leave id outer => cases hdisciplined.1

theorem pending_congr (h : ∀ n context id, held n context id ∈ rest → (t'.get id).held = (t.get id).held) :
    pending t' rest later = pending t rest later := by
  induction rest generalizing later with
  | nil => rfl
  | cons action rest ih =>
    have hrest : ∀ {later}, pending t' rest later = pending t rest later :=
      ih fun n context id hmem => h n context id (mem_cons_of_mem _ hmem)
    cases action with
    | held n context id => simp only [pending, hrest, h n context id mem_cons_self]
    | _ => simp only [pending, hrest]

/-- How many pairs were looked at so far. -/
def done (p : Progress) : Nat := p.handled.length + p.entered.length

/-- An action has the root scope, goes as deep as it may, and what it says about handled
    pairs is true. -/
def Sound (root : Scope) (limit : Nat) (p : Progress) : WalkAction → Prop
  | visit n context _ | nested n context => context.root = root ∧ limit ≤ n + done p
  | held n context id => context.root = root ∧ limit ≤ n + done p ∧ id ∈ p.handled
  | _ => True

end WalkAction

/-- What is left to do as visits, and how far the walk has come. What is left for
    later is not noted apart. -/
structure Worklist where
  pending : List Visit
  opens : List PairId
  progress : Progress

namespace Worklist

open Progress

/-- One step of the worklist. `passes` tells which definition's usages are tied to
    which definition while that is open and off the chain. -/
inductive Step (root : Scope) (passes : PairId → PairId → Prop) : Worklist → Worklist → Prop
  | note {l l' : List Visit} {opens : List PairId} {p p' : Progress} :
      l'.Perm l → Noted p p' → Step root passes ⟨l, opens, p⟩ ⟨l', opens, p'⟩
  | close {l : List Visit} {d : PairId} {opens : List PairId} {p p' : Progress} :
      Noted p p' → Step root passes ⟨l, d :: opens, p⟩ ⟨l, opens, p'⟩
  | skip {v : Visit} {l : List Visit} {p : Progress} :
      (p.tree.kind v.id).isAliasDefinition = true → v.id ∈ p.entered →
      Step root passes ⟨v :: l, v.opens, p⟩ ⟨l, v.opens, p⟩
  | postpone {v : Visit} {l l' : List Visit} {p : Progress} :
      (p.tree.kind v.id).isAliasDefinition = true → l'.Perm ({ v with chain := [] } :: l) →
      Step root passes ⟨v :: l, v.opens, p⟩ ⟨l', v.opens, p⟩
  | enter {v : Visit} {l : List Visit} {p p' : Progress} :
      (p.tree.kind v.id).isAliasDefinition = true → v.id ∉ p.entered →
      Noted { p with entered := v.id :: p.entered } p' →
      Step root passes ⟨v :: l, v.opens, p⟩
        ⟨{ v with chain := [v.id], opens := v.id :: v.opens }.below p'.tree ++ l, v.id :: v.opens, p'⟩
  | handle {v : Visit} {l : List Visit} {p p' : Progress} :
      (p.tree.kind v.id).isAliasDefinition = false → (p.tree.kind v.id).isAliasUsage = false →
      Noted ({ p with handled := v.id :: p.handled }.splitScope v.id) p' →
      Step root passes ⟨v :: l, v.opens, p⟩ ⟨v.below p'.tree ++ l, v.opens, p'⟩
  | unbound {v : Visit} {l : List Visit} {p p₁ : Progress} {branch : Option Branch} :
      (p.tree.kind v.id).isAliasUsage = true → v.aliases (p.tree.get v.id).nameText = none →
      Noted { p with handled := v.id :: p.handled } p₁ →
      Step root passes ⟨v :: l, v.opens, p⟩
        ⟨v.below p₁.tree ++ l, v.opens, p₁.reportName branch .aliasIsNotDefined v.id⟩
  | circular {v : Visit} {l : List Visit} {p p₁ : Progress} {branch : Option Branch} {e : PairId} :
      (p.tree.kind v.id).isAliasUsage = true → v.aliases (p.tree.get v.id).nameText = some e →
      e ∈ v.chain → Noted { p with handled := v.id :: p.handled } p₁ →
      Step root passes ⟨v :: l, v.opens, p⟩ ⟨v.below p₁.tree ++ l, v.opens,
        (v.chain.dropWhile (· ≠ e)).foldl (markCircular branch) (p₁.tie v.id e)⟩
  | settled {v : Visit} {l : List Visit} {p p₁ : Progress} {e : PairId} :
      (p.tree.kind v.id).isAliasUsage = true → v.aliases (p.tree.get v.id).nameText = some e →
      e ∉ v.chain → e ∈ p.entered → Noted { p with handled := v.id :: p.handled } p₁ →
      (∀ d, p.tree.enclosingDefinition? v.id = some d → e ∈ v.opens → passes d e) →
      Step root passes ⟨v :: l, v.opens, p⟩ ⟨v.below p₁.tree ++ l, v.opens, p₁.tie v.id e⟩
  | follow {v : Visit} {l : List Visit} {p p₁ p₂ p' : Progress} {e : PairId} :
      (p.tree.kind v.id).isAliasUsage = true → v.aliases (p.tree.get v.id).nameText = some e →
      e ∉ v.chain → e ∉ p.entered → Noted { p with handled := v.id :: p.handled } p₁ →
      Noted (p₁.tie v.id e) p₂ → Noted { p₂ with entered := e :: p₂.entered } p' →
      Step root passes ⟨v :: l, v.opens, p⟩
        ⟨(Visit.mk (p₂.tree.scopeAround root e).aliases (v.chain ++ [e]) (e :: v.opens) e).below p'.tree ++
          (v.below p₁.tree ++ l), e :: v.opens, p'⟩

end Worklist

namespace Config

def worklist (m : Config) : Worklist where
  pending := WalkAction.pending m.progress.tree m.agenda m.progress.deferred
  opens := WalkAction.opens m.agenda
  progress := m.progress.forget

/-- A usage in the definition `d` is about to be tied to `e`, which was entered and
    not left yet, but is not on the chain that led here. -/
def PassesOver (m : Config) (d e : PairId) : Prop := ∃ n context u rest, m.agenda = .visit (n + 1) context u :: rest ∧
    (m.progress.tree.kind u).isAliasUsage = true ∧
    m.progress.tree.enclosingDefinition? u = some d ∧
    context.scope.aliasFor? (m.progress.tree.get u).nameText = some e ∧
    e ∉ context.chain ∧ e ∈ WalkAction.opens rest

/-- What the agenda owes to the way the walk is made. -/
structure Orderly (root : Scope) (limit : Nat) (m : Config) : Prop where
  disciplined : WalkAction.Disciplined m.agenda m.progress.deferred
  sound : ∀ action ∈ m.agenda, action.Sound root limit m.progress

end Config

end PairMarkup
