import Mathlib.Logic.Relation
import PairMarkup.Resolution.Walk

namespace PairMarkup

open List

/-- What the walk has yet to do. -/
inductive WalkAction where
  /-- To look at a pair. -/
  | visit (depth : Nat) (context : Context) (id : PairId)
  /-- To go on with what a handled pair holds. -/
  | held (depth : Nat) (context : Context) (id : PairId)
  | settle (id : PairId)
  | check (branch : Option Branch) (usage definition : PairId)
  /-- To go on with the definitions that were left for later. -/
  | nested (depth : Nat) (context : Context)
  /-- To leave a definition that was entered. -/
  | leave (id : PairId) (outer : Option (List Deferred))

namespace WalkAction

variable (depth : Nat)

def visitAll (visits : List (Context × PairId)) : List WalkAction := visits.map fun v => visit depth v.1 v.2

def ofEntering (context : Context) (id : PairId) (p : Progress) : List WalkAction × Progress :=
  if p.entered.contains id then ([], p)
  else
    let opened := p.openDefinition context.branch id
    (visitAll depth (Progress.visits opened.tree (context.inside opened.tree id) id) ++
      [nested depth context, leave id p.deferred], opened)

def ofTie (context : Context) (id : PairId) (p : Progress) : List WalkAction × Progress :=
  match context.scope.aliasFor? (p.tree.get id).nameText with
  | none => ([], p.reportName context.branch .aliasIsNotDefined id)
  | some definition =>
    let p := p.tie id definition
    let next :=
      if context.chain.contains definition then ([], p.closeCircle context definition)
      else if p.entered.contains definition then ([], p)
      else
        let p := p.announceAround context.branch definition
        ofEntering depth (context.around p.tree definition) definition p
    (next.1 ++ [check context.branch id definition], next.2)

def ofHandling (context : Context) (id : PairId) (p : Progress) : List WalkAction × Progress :=
  let p := p.beginPair context.branch id
  let inner := p.tree.enter id context.scope
  let next :=
    if (p.tree.kind id).isAliasUsage then ofTie depth context id p
    else ([], p.noteKind context.branch inner id)
  (next.1 ++ [held depth { context with scope := inner } id, settle id], next.2)

def ofVisit (context : Context) (id : PairId) (p : Progress) : List WalkAction × Progress :=
  if (p.tree.kind id).isAliasDefinition then
    match p.deferred with
    | some deferred =>
      ([], { p with deferred := some (deferred ++ [⟨id, context.scope, context.branch⟩]) })
    | none => ofEntering depth { context with chain := [] } id p
  else ofHandling depth context id p

/-- Does the action: what is to be done right after it, and how far the walk has come. -/
def perform : WalkAction → Progress → List WalkAction × Progress
  | visit 0 _ _, p => ([], p)
  | visit (n + 1) context id, p => ofVisit n context id p
  | held n context id, p =>
    (visitAll n (Progress.visits p.tree { context with scope := p.tree.openScope id context.scope } id), p)
  | settle id, p => ([], p.settleValueKind id)
  | check branch usage definition, p => ([], p.checkArguments branch usage definition)
  | nested n context, p =>
    (visitAll n ((p.deferred.getD []).map fun d => (context.resume d, d.definition)), { p with deferred := none })
  | leave id outer, p => ([], { p.settleValueKind id with deferred := outer })

end WalkAction

/-- What the walk has yet to do, and how far it has come. -/
structure Config where
  agenda : List WalkAction
  progress : Progress

namespace Config

open WalkAction

inductive Step : Config → Config → Prop
  | perform (action : WalkAction) (rest : List WalkAction) (p : Progress) :
      Step ⟨action :: rest, p⟩ ⟨(action.perform p).1 ++ rest, (action.perform p).2⟩

def Leads : Config → Config → Prop := Relation.ReflTransGen Step

/-- Where the walk over all modules begins. -/
def start (set : ModuleSet) : Config where
  agenda := visitAll (2 * set.tree.size + 2)
    (set.modules.map fun id => (⟨set.globalScope, set.globalScope, [], none⟩, id))
  progress := set.modules.foldl (Progress.announce none) (Progress.initial set)

variable {m : Config}

theorem leads_of_perform {action : WalkAction} {rest : List WalkAction} {p : Progress}
    (h : Leads ⟨(action.perform p).1 ++ rest, (action.perform p).2⟩ m) : Leads ⟨action :: rest, p⟩ m :=
  .head (.perform action rest p) h

theorem check_leads (branch : Option Branch) (usage definition : PairId) (rest : List WalkAction)
    (p : Progress) : Leads ⟨.check branch usage definition :: rest, p⟩
      ⟨rest, p.checkArguments branch usage definition⟩ :=
  leads_of_perform .refl

theorem settle_leads (id : PairId) (rest : List WalkAction) (p : Progress) :
    Leads ⟨.settle id :: rest, p⟩ ⟨rest, p.settleValueKind id⟩ :=
  leads_of_perform .refl

section

open Progress

variable {n : Nat} (ih : ∀ context id rest p, Leads ⟨.visit n context id :: rest, p⟩
  ⟨rest, walkTo n context id p⟩) (visits : List (Context × PairId))

include ih

theorem visitAll_leads (rest : List WalkAction) (p : Progress) : Leads ⟨visitAll n visits ++ rest, p⟩
      ⟨rest, visits.foldl (fun p v => walkTo n v.1 v.2 p) p⟩ := by
  induction visits generalizing p with
  | nil => exact .refl
  | cons v visits hvisits => exact (ih v.1 v.2 _ p).trans (hvisits _)

/-- A body is walked, then what was left for later in it, and then it is left. -/
theorem body_leads (context : Context) (id : PairId)
    (outer : Option (List Deferred)) (rest : List WalkAction) (p : Progress) :
    let walked := visits.foldl (fun p v => walkTo n v.1 v.2 p) p
    let done := (walked.deferred.getD []).foldl
      (fun p d => walkTo n (context.resume d) d.definition p) { walked with deferred := none }
    Leads ⟨visitAll n visits ++ .nested n context :: .leave id outer :: rest, p⟩
      ⟨rest, { done.settleValueKind id with deferred := outer }⟩ := by
  intro walked done
  have hnested : Leads ⟨.nested n context :: .leave id outer :: rest, walked⟩ ⟨.leave id outer :: rest, done⟩ := by
    have h := visitAll_leads ih ((walked.deferred.getD []).map fun d => (context.resume d, d.definition))
      (.leave id outer :: rest) { walked with deferred := none }
    rw [foldl_map] at h
    exact leads_of_perform h
  exact (visitAll_leads ih _ _ _).trans (hnested.trans (leads_of_perform .refl))

section

variable (context : Context) (id : PairId) (rest : List WalkAction) (p : Progress)

theorem ofEntering_leads : Leads ⟨(ofEntering n context id p).1 ++ rest, (ofEntering n context id p).2⟩
      ⟨rest, enterDefinition (walkTo n) context id p⟩ := by
  unfold ofEntering enterDefinition
  by_cases hentered : p.entered.contains id = true
  · rw [if_pos hentered, if_pos hentered]
    exact .refl
  · rw [if_neg hentered, if_neg hentered, append_assoc]
    dsimp only
    exact body_leads ih _ _ _ _ _ _

theorem ofTie_leads : Leads ⟨(ofTie n context id p).1 ++ rest, (ofTie n context id p).2⟩
      ⟨rest, bindUsage (walkTo n) context id p⟩ := by
  unfold ofTie bindUsage
  cases context.scope.aliasFor? (p.tree.get id).nameText with
  | none => exact .refl
  | some definition =>
    simp only [append_assoc]
    by_cases hchain : context.chain.contains definition = true
    · rw [if_pos hchain, if_pos hchain]
      exact check_leads ..
    · rw [if_neg hchain, if_neg hchain]
      by_cases hentered : (p.tie id definition).entered.contains definition = true
      · rw [if_pos hentered, if_pos hentered]
        exact check_leads ..
      · rw [if_neg hentered, if_neg hentered]
        exact (ofEntering_leads ih _ _ _ _).trans (check_leads ..)

theorem held_leads : Leads ⟨.held n context id :: rest, p⟩ ⟨rest, walkHeld (walkTo n)
      { context with scope := p.tree.openScope id context.scope } id p⟩ :=
  leads_of_perform (visitAll_leads ih _ _ _)

theorem ofHandling_leads : Leads ⟨(ofHandling n context id p).1 ++ rest, (ofHandling n context id p).2⟩
      ⟨rest, handle (walkTo n) context id p⟩ := by
  unfold ofHandling handle
  simp only [append_assoc]
  by_cases husage : ((p.beginPair context.branch id).tree.kind id).isAliasUsage = true
  · rw [if_pos husage, if_pos husage]
    exact (ofTie_leads ih _ _ _ _).trans ((held_leads ih _ _ _ _).trans (settle_leads ..))
  · rw [if_neg husage, if_neg husage]
    exact (held_leads ih _ _ _ _).trans (settle_leads ..)

theorem ofVisit_leads : Leads ⟨(ofVisit n context id p).1 ++ rest, (ofVisit n context id p).2⟩
      ⟨rest, step (walkTo n) context id p⟩ := by
  unfold ofVisit step
  by_cases hkind : (p.tree.kind id).isAliasDefinition = true
  · rw [if_pos hkind, if_pos hkind]
    cases p.deferred with
    | some deferred => exact .refl
    | none => exact ofEntering_leads ih _ _ _ _
  · rw [if_neg hkind, if_neg hkind]
    exact ofHandling_leads ih _ _ _ _

end

end

theorem visit_leads (n : Nat) (context : Context) (id : PairId) (rest : List WalkAction) (p : Progress) :
    Leads ⟨.visit n context id :: rest, p⟩ ⟨rest, Progress.walkTo n context id p⟩ := by
  induction n generalizing context id rest p with
  | zero => exact leads_of_perform .refl
  | succ n ih => exact leads_of_perform (ofVisit_leads ih context id rest p)

/-- The steps lead from the start to the end of the walk. -/
theorem start_leads_run (set : ModuleSet) : Leads (start set) ⟨[], Progress.run set⟩ := by
  have h := visitAll_leads (visit_leads _) (set.modules.map fun id =>
    (⟨set.globalScope, set.globalScope, [], none⟩, id)) [] (start set).progress (n := 2 * set.tree.size + 2)
  rw [append_nil, foldl_map] at h
  exact h

/-- What holds at the start and is kept by each step holds throughout. -/
theorem induction_on {set : ModuleSet} {P : Config → Prop} (hstart : P (start set))
    (hstep : ∀ m m', Leads (start set) m → P m → Step m m' → P m') (hm : Leads (start set) m) : P m := by
  induction hm with
  | refl => exact hstart
  | tail hlead hlast ih => exact hstep _ _ hlead ih hlast

end Config

end PairMarkup
