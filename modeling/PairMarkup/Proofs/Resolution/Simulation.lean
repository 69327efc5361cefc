import PairMarkup.Proofs.Resolution.Worklist

namespace PairMarkup.Config

open List PairTree Config Progress

variable {passes : PairId → PairId → Prop} {e : PairId} {limit : Nat} {root : Scope} {m' m : Config}

section

open Progress WalkAction

variable {t t' : PairTree} {rest : List WalkAction} {later : Option (List Deferred)} {p p' : Progress}

theorem within_eq_of_shape (h : t'.shape = t.shape) (id : PairId) : t'.within id = t.within id := by
  funext aliases name
  rw [within, ← hoistedAs?_shape, h, hoistedAs?_shape, within]

theorem below_eq_of_shape (h : t'.shape = t.shape) (v : Visit) : v.below t' = v.below t := by
  rw [Visit.below, held_eq_of_shape h, within_eq_of_shape h, Visit.below]

theorem pending_eq_of_shape (h : t'.shape = t.shape) : pending t' rest later = pending t rest later :=
  pending_congr fun _ _ id _ => held_eq_of_shape h id

theorem aliases_enter (t : PairTree) (id : PairId) (scope : Scope) :
    (t.enter id scope).aliases = t.within id scope.aliases :=
  funext fun name => Scope.aliasFor?_enter t name id scope

theorem aliases_openScope (t : PairTree) (id : PairId) (scope : Scope) :
    (t.openScope id scope).aliases = scope.aliases :=
  funext fun name => Scope.aliasFor?_openScope t name id scope

theorem openDefinition_noted (p : Progress) (branch : Option Branch) (id : PairId) :
    Noted { p with entered := id :: p.entered, deferred := some [] } (p.openDefinition branch id) :=
  (lenient_noted.recordSignature _ branch id (by decide) fun _ hf => Pair.mapInfo_core hf).trans
    (announce_noted _ branch id)

theorem beginPair_noted (p : Progress) (branch : Option Branch) (id : PairId) :
    Noted ({ p with handled := id :: p.handled }.splitScope id) (p.beginPair branch id) :=
  announce_noted _ branch id

theorem worklist_ofEntering (n : Nat) (context : Context) (rest : List WalkAction) {id : PairId}
    (hid : id ∉ p.entered) :
    worklist ⟨(ofEntering n context id p).1 ++ rest, (ofEntering n context id p).2⟩ =
      ⟨(Visit.mk context.scope.aliases (context.chain ++ [id]) (id :: opens rest) id).below
        (p.openDefinition context.branch id).forget.tree ++ pending p.tree rest p.deferred,
        id :: opens rest, (p.openDefinition context.branch id).forget⟩ := by
  have hnoted := openDefinition_noted p context.branch id
  have hrest : pending (p.openDefinition context.branch id).tree rest p.deferred =
      pending p.tree rest p.deferred := pending_eq_of_shape hnoted.shape_eq
  rw [ofEntering, if_neg (by simpa using hid)]
  simp only [worklist, append_assoc, cons_append, nil_append, opens_visitAll, hnoted.deferred_eq]
  rw [pending_visits]
  simp only [Context.inside, aliases_enter, pending, opens, Option.getD_some, map_nil,
    nil_append, hrest, Visit.below, tree_forget]

theorem worklist_held (n : Nat) (context : Context) (id : PairId) (rest : List WalkAction)
    {t₁ : PairTree} (h : p.tree.shape = t₁.shape) :
    worklist ⟨held n { context with scope := t₁.enter id context.scope } id :: settle id :: rest, p⟩ =
      ⟨(Visit.mk context.scope.aliases context.chain (opens rest) id).below t₁ ++
        pending p.tree rest p.deferred, opens rest, p.forget⟩ := by
  simp only [worklist, pending, opens, aliases_enter, Visit.below, held_eq_of_shape h]

variable {root : Scope} {n : Nat} {context : Context} {id : PairId}

theorem splitScope_of_usage (husage : (p.tree.kind id).isAliasUsage) :
    { p with handled := id :: p.handled }.splitScope id = { p with handled := id :: p.handled } := by
  have hnot : ¬ p.tree.NamedScope id := by
    rintro ⟨hscope, -⟩
    rw [Kind.not_scope_of_usage husage] at hscope
    cases hscope
  exact congrArg (setTree { p with handled := id :: p.handled }) (splitScope_of_not hnot)

/-- A definition is met where a body is walked, or anywhere else. -/
theorem worklist_definition (hdisciplined : Disciplined rest p.deferred) (hdef : (p.tree.kind id).isAliasDefinition) :
    Worklist.Step root passes (worklist ⟨.visit (n + 1) context id :: rest, p⟩)
      (worklist ⟨(ofVisit n context id p).1 ++ rest, (ofVisit n context id p).2⟩) := by
  cases hlater : p.deferred with
  | some deferred =>
    have hvisit : ofVisit n context id p = ([], { p with
        deferred := some (deferred ++ [⟨id, context.scope, context.branch⟩]) }) := by
      simp only [ofVisit, hdef, hlater, if_true]
    rw [hvisit]
    exact .postpone (v := ⟨context.scope.aliases, context.chain, opens rest, id⟩) (p := p.forget) hdef
      (pending_postpone hdisciplined hlater _)
  | none =>
    have hvisit : ofVisit n context id p = ofEntering n { context with chain := [] } id p := by
      simp only [ofVisit, hdef, hlater, if_true]
    rw [hvisit]
    by_cases hentered : id ∈ p.entered
    · have hnothing : ofEntering n { context with chain := [] } id p = ([], p) := by
        rw [ofEntering, if_pos (by simpa using hentered)]
      rw [hnothing]
      exact .skip (v := ⟨context.scope.aliases, context.chain, opens rest, id⟩) (p := p.forget) hdef hentered
    · have hnoted : Noted { p.forget with entered := id :: p.forget.entered }
          (p.openDefinition context.branch id).forget :=
        (openDefinition_noted p context.branch id).forget
      rw [worklist_ofEntering n { context with chain := [] } rest hentered]
      generalize p.openDefinition _ id = opened at *
      exact .enter (v := ⟨context.scope.aliases, context.chain, opens rest, id⟩) (p := p.forget) hdef hentered hnoted

/-- Pairs that wait for what they hold are handled already, and so are not split. -/
theorem pending_splitScope (hwf : p.tree.WellFormed) (hlt : ∀ x ∈ p.handled, x < p.tree.size)
    (hheld : ∀ n context x, held n context x ∈ rest → x ∈ p.handled) (hfresh : id ∉ p.handled) :
    pending (p.tree.splitScope id) rest later = pending p.tree rest later := by
  refine pending_congr fun n context x hx => ?_
  have hmem := hheld n context x hx
  by_cases hnamed : p.tree.NamedScope id
  · refine (isSplit_splitScope hwf hnamed).held_eq (hlt x hmem).ne ?_
    rintro rfl
    exact hfresh hmem
  · rw [splitScope_of_not hnamed]

/-- To visit a pair that is neither a definition nor a usage is to note what its kind asks
    for and to go on with what it holds. -/
theorem ofVisit_plain (n : Nat) (context : Context) (hwf : p.tree.WellFormed)
    (hdef : (p.tree.kind id).isAliasDefinition = false)
    (husage : (p.tree.kind id).isAliasUsage = false) :
    ofVisit n context id p =
      ([held n { context with scope := (p.beginPair context.branch id).tree.enter id context.scope } id,
        settle id], (p.beginPair context.branch id).noteKind context.branch
          ((p.beginPair context.branch id).tree.enter id context.scope) id) := by
  have hkind : ((p.beginPair context.branch id).tree.kind id).isAliasUsage = false := by
    rw [isAliasUsage_eq_of_shape (beginPair_noted p context.branch id).shape_eq]
    change ((p.tree.splitScope id).kind id).isAliasUsage = false
    by_cases hnamed : p.tree.NamedScope id
    · rw [(isSplit_splitScope hwf hnamed).kind_eq hnamed.lt_size.ne]
      exact husage
    · rw [splitScope_of_not hnamed]
      exact husage
  simp only [ofVisit, ofHandling, hdef, hkind, Bool.false_eq_true, if_false, nil_append]

theorem worklist_other (hwf : p.tree.WellFormed) (hlt : ∀ x ∈ p.handled, x < p.tree.size)
    (hheld : ∀ n context x, held n context x ∈ rest → x ∈ p.handled) (hfresh : id ∉ p.handled)
    (hdef : (p.tree.kind id).isAliasDefinition = false) (husage : (p.tree.kind id).isAliasUsage = false) :
    Worklist.Step root passes (worklist ⟨.visit (n + 1) context id :: rest, p⟩)
      (worklist ⟨(ofVisit n context id p).1 ++ rest, (ofVisit n context id p).2⟩) := by
  have hbegin := beginPair_noted p context.branch id
  have hnote := noteKind_noted (p.beginPair context.branch id) context.branch
    ((p.beginPair context.branch id).tree.enter id context.scope) id
  rw [ofVisit_plain n context hwf hdef husage]
  generalize (p.beginPair context.branch id) = p₁ at *
  generalize p₁.noteKind context.branch (p₁.tree.enter id context.scope) id = p' at *
  have hdeferred : p'.deferred = p.deferred := hnote.deferred_eq.trans hbegin.deferred_eq
  have hpending : pending p'.tree rest p'.deferred = pending p.tree rest p.deferred := by
    rw [hdeferred, pending_eq_of_shape (hnote.shape_eq.trans hbegin.shape_eq)]
    exact pending_splitScope (p := p) hwf hlt hheld hfresh
  have hhandle : Noted ({ p.forget with handled := id :: p.forget.handled }.splitScope id) p'.forget :=
    (hbegin.trans hnote).forget
  simp only [cons_append, nil_append]
  rw [worklist_held n context id rest hnote.shape_eq, hpending, ← below_eq_of_shape hnote.shape_eq, ← tree_forget]
  exact .handle (v := ⟨context.scope.aliases, context.chain, opens rest, id⟩) (p := p.forget) hdef husage hhandle

theorem worklist_check (branch : Option Branch) (u e : PairId) (rest : List WalkAction) (p : Progress) :
    worklist ⟨check branch u e :: rest, p⟩ = worklist ⟨rest, p⟩ := rfl

section Usage

/-- To tie the usage is one step, and what the usage holds comes behind. -/
def TieSteps (root : Scope) (passes : PairId → PairId → Prop) (n : Nat) (context : Context) (id : PairId)
    (rest : List WalkAction) (p p₁ : Progress) : Prop :=
  Worklist.Step root passes (worklist ⟨.visit (n + 1) context id :: rest, p⟩) (worklist ⟨(ofTie n context id p₁).1 ++
      held n { context with scope := p₁.tree.enter id context.scope } id :: settle id :: rest,
      (ofTie n context id p₁).2⟩)

variable {p₁ : Progress} {passes : PairId → PairId → Prop}
  (hbegin : Noted { p with handled := id :: p.handled } p₁)
  (husage : (p.tree.kind id).isAliasUsage)

include hbegin

theorem nameText_begun : (p₁.tree.get id).nameText = (p.tree.get id).nameText :=
  nameText_eq_of_shape hbegin.shape_eq id

theorem pending_begun {q : Progress} (h : Alike p₁ q) :
    pending q.tree rest q.deferred = pending p.tree rest p.deferred := by
  rw [h.deferred_eq, hbegin.deferred_eq, pending_eq_of_shape (h.shape_eq.trans hbegin.shape_eq)]
  rfl

include husage

theorem worklist_unbound (hfound : context.scope.aliasFor? (p.tree.get id).nameText = none) :
    TieSteps root passes n context id rest p p₁ := by
  unfold TieSteps
  have htie : ofTie n context id p₁ = ([], p₁.reportName context.branch .aliasIsNotDefined id) := by
    simp only [ofTie, nameText_begun hbegin, hfound]
  have halike := reportName_alike p₁ context.branch .aliasIsNotDefined id
  rw [htie, nil_append, worklist_held n context id rest halike.shape_eq, pending_begun hbegin halike,
    reportName_forget]
  exact .unbound (v := ⟨context.scope.aliases, context.chain, opens rest, id⟩) (p := p.forget) husage hfound
    hbegin.forget

theorem worklist_circular (hfound : context.scope.aliasFor? (p.tree.get id).nameText = some e)
    (hchain : e ∈ context.chain) :
    TieSteps root passes n context id rest p p₁ := by
  unfold TieSteps
  have hkind := (isAliasUsage_eq_of_shape hbegin.shape_eq id).trans husage
  have htie : ofTie n context id p₁ = ([check context.branch id e], closeCircle context e (p₁.tie id e)) := by
    have hcontains : context.chain.contains e := by simpa using hchain
    simp only [ofTie, nameText_begun hbegin, hfound, hcontains, if_true, nil_append]
  have halike := (tie_alike hkind e).trans (closeCircle_alike context e (p₁.tie id e))
  rw [htie, singleton_append, worklist_check, worklist_held n context id rest halike.shape_eq,
    pending_begun hbegin halike, closeCircle, foldl_markCircular_forget, tie_forget]
  exact .circular (v := ⟨context.scope.aliases, context.chain, opens rest, id⟩) (p := p.forget) husage
    hfound hchain hbegin.forget

theorem worklist_settled (hfound : context.scope.aliasFor? (p.tree.get id).nameText = some e)
    (hchain : e ∉ context.chain) (hentered : e ∈ p.entered)
    (hpasses : ∀ d e, PassesOver ⟨.visit (n + 1) context id :: rest, p⟩ d e → passes d e) :
    TieSteps root passes n context id rest p p₁ := by
  unfold TieSteps
  have hkind := (isAliasUsage_eq_of_shape hbegin.shape_eq id).trans husage
  have htie : ofTie n context id p₁ = ([check context.branch id e], p₁.tie id e) := by
    have hoff : ¬ context.chain.contains e := by simpa using hchain
    have hcontains : (p₁.tie id e).entered.contains e := by
      change p₁.entered.contains e = true
      rw [hbegin.entered_eq]
      simpa using hentered
    simp only [ofTie, nameText_begun hbegin, hfound, hoff, hcontains, Bool.false_eq_true, if_false, if_true,
      nil_append]
  have halike := tie_alike hkind e
  rw [htie, singleton_append, worklist_check, worklist_held n context id rest halike.shape_eq,
    pending_begun hbegin halike, tie_forget]
  exact .settled (v := ⟨context.scope.aliases, context.chain, opens rest, id⟩) (p := p.forget) husage hfound
    hchain hentered hbegin.forget fun d hd hopen =>
      hpasses d e ⟨n, context, id, rest, rfl, husage, hd, hfound, hchain, hopen⟩

theorem worklist_follow (hroot : context.root = root)
    (hfound : context.scope.aliasFor? (p.tree.get id).nameText = some e) (hchain : e ∉ context.chain)
    (hentered : e ∉ p.entered) :
    TieSteps root passes n context id rest p p₁ := by
  unfold TieSteps
  have hkind := (isAliasUsage_eq_of_shape hbegin.shape_eq id).trans husage
  have halike := tie_alike hkind e
  have haround := announceAround_noted (p₁.tie id e) context.branch e
  have htie : ofTie n context id p₁ =
      ((ofEntering n (context.around ((p₁.tie id e).announceAround context.branch e).tree e) e
        ((p₁.tie id e).announceAround context.branch e)).1 ++ [check context.branch id e],
      (ofEntering n (context.around ((p₁.tie id e).announceAround context.branch e).tree e) e
        ((p₁.tie id e).announceAround context.branch e)).2) := by
    have hoff : ¬ context.chain.contains e := by simpa using hchain
    have hnew : ¬ (p₁.tie id e).entered.contains e := by
      change ¬ p₁.entered.contains e = true
      rw [hbegin.entered_eq]
      simpa using hentered
    simp only [ofTie, nameText_begun hbegin, hfound, hoff, hnew, Bool.false_eq_true, if_false]
  rw [htie]
  have hforget := haround.forget
  rw [tie_forget] at hforget
  generalize (p₁.tie id e).announceAround context.branch e = p₂ at *
  have hnew : e ∉ p₂.entered := by
    rw [haround.entered_eq]
    change e ∉ p₁.entered
    rw [hbegin.entered_eq]
    exact hentered
  have hopen : Noted { p₂.forget with entered := e :: p₂.forget.entered }
      (p₂.openDefinition (context.around p₂.tree e).branch e).forget :=
    (openDefinition_noted p₂ _ e).forget
  have hrest := worklist_held n context id rest (p := p₂) (haround.shape_eq.trans halike.shape_eq)
  rw [pending_begun hbegin (halike.trans haround.alike)] at hrest
  rw [← worklist_check context.branch id e] at hrest
  rw [append_assoc, singleton_append, worklist_ofEntering n _ _ hnew]
  have hpending := congrArg Worklist.pending hrest
  have hopens := congrArg Worklist.opens hrest
  simp only [worklist] at hpending hopens
  rw [hpending, hopens, ← hroot]
  generalize p₂.openDefinition (context.around p₂.tree e).branch e = p' at *
  rw [← tree_forget p₁, ← tree_forget p₂]
  exact .follow (v := ⟨context.scope.aliases, context.chain, opens rest, id⟩) (p := p.forget) husage hfound
    hchain hentered hbegin.forget hforget hopen

end Usage

/-- To visit a usage is to tie it and then to go on with what it holds. -/
theorem ofVisit_usage (n : Nat) (context : Context) (husage : (p.tree.kind id).isAliasUsage) :
    ofVisit n context id p = ((ofTie n context id (p.beginPair context.branch id)).1 ++
        [held n { context with scope := (p.beginPair context.branch id).tree.enter id context.scope } id,
          settle id], (ofTie n context id (p.beginPair context.branch id)).2) := by
  have hdef : (p.tree.kind id).isAliasDefinition = false := by
    cases hkind : p.tree.kind id <;> simp [hkind, Kind.isAliasUsage, Kind.isAliasDefinition] at husage ⊢
  have hbegin := beginPair_noted p context.branch id
  rw [splitScope_of_usage husage] at hbegin
  have hkind : ((p.beginPair context.branch id).tree.kind id).isAliasUsage :=
    (isAliasUsage_eq_of_shape hbegin.shape_eq id).trans husage
  simp only [ofVisit, ofHandling, hdef, hkind, Bool.false_eq_true, if_false, if_true]

theorem worklist_usage (husage : (p.tree.kind id).isAliasUsage) (hroot : context.root = root)
    (hpasses : ∀ d e, PassesOver ⟨.visit (n + 1) context id :: rest, p⟩ d e → passes d e) :
    Worklist.Step root passes (worklist ⟨.visit (n + 1) context id :: rest, p⟩)
      (worklist ⟨(ofVisit n context id p).1 ++ rest, (ofVisit n context id p).2⟩) := by
  have hbegin := beginPair_noted p context.branch id
  rw [splitScope_of_usage husage] at hbegin
  rw [ofVisit_usage n context husage, append_assoc]
  cases hfound : context.scope.aliasFor? (p.tree.get id).nameText with
  | none => exact worklist_unbound hbegin husage hfound
  | some e =>
    by_cases hchain : e ∈ context.chain
    · exact worklist_circular hbegin husage hfound hchain
    · by_cases hentered : e ∈ p.entered
      · exact worklist_settled hbegin husage hfound hchain hentered hpasses
      · exact worklist_follow hbegin husage hroot hfound hchain hentered

end

open WalkAction in
theorem Step.worklist (hstep : Step m m') (hpasses : ∀ d e, m.PassesOver d e → passes d e)
    (horderly : m.Orderly root limit) (hwf : m.progress.tree.WellFormed)
    (hlimit : done m.progress < limit) (hlt : ∀ x ∈ m.progress.handled, x < m.progress.tree.size)
    (hfresh : ∀ v ∈ m.worklist.pending, (m.progress.tree.kind v.id).isAliasDefinition = false →
      v.id ∉ m.progress.handled) :
    Worklist.Step root passes m.worklist m'.worklist := by
  obtain ⟨action, rest, p⟩ := hstep
  have hsound := horderly.sound action mem_cons_self
  cases action with
  | visit n context id =>
    cases n with
    | zero =>
      have hdepth : limit ≤ 0 + done p := hsound.2
      dsimp only at hlimit
      omega
    | succ n =>
      by_cases hdef : (p.tree.kind id).isAliasDefinition = true
      · exact worklist_definition horderly.disciplined hdef
      · rw [Bool.not_eq_true] at hdef
        by_cases husage : (p.tree.kind id).isAliasUsage = true
        · exact worklist_usage husage hsound.1 hpasses
        · rw [Bool.not_eq_true] at husage
          refine worklist_other hwf hlt (fun n context x hx => ?_) (hfresh _ mem_cons_self hdef) hdef husage
          exact (horderly.sound _ (mem_cons_of_mem _ hx)).2.2
  | held n context id =>
    have hworklist : worklist ⟨((held n context id).perform p).1 ++ rest, p⟩ =
        worklist ⟨held n context id :: rest, p⟩ := by
      simp only [WalkAction.perform, worklist, opens_visitAll, pending_visits, aliases_openScope, pending, opens]
    exact hworklist.symm ▸ .note (.refl _) (.refl _)
  | settle id =>
    have hnoted := settleValueKind_noted p id
    refine .note (.of_eq ?_) hnoted.forget
    exact (pending_eq_of_shape hnoted.shape_eq).trans (congrArg _ hnoted.deferred_eq)
  | check branch u e =>
    have hnoted := checkArguments_noted p branch u e
    refine .note (.of_eq ?_) hnoted.forget
    exact (pending_eq_of_shape hnoted.shape_eq).trans (congrArg _ hnoted.deferred_eq)
  | nested n context =>
    have hworklist : worklist ⟨((nested n context).perform p).1 ++ rest, p.forget⟩ =
        worklist ⟨nested n context :: rest, p⟩ := by
      simp only [WalkAction.perform, worklist, opens_visitAll, pending_visitAll, map_map, pending, opens]
      rfl
    exact hworklist.symm ▸ .note (.refl _) (.refl _)
  | leave id outer =>
    have hnoted := settleValueKind_noted p id
    have hworklist : worklist ⟨rest, { p.settleValueKind id with deferred := outer }⟩ =
        ⟨pending p.tree rest outer, opens rest, (p.settleValueKind id).forget⟩ :=
      congrArg (Worklist.mk · _ _) (pending_eq_of_shape hnoted.shape_eq)
    exact hworklist.symm ▸ .close hnoted.forget

section

open Progress WalkAction

variable {root : Scope} {limit n : Nat} {context : Context} {id : PairId} {p p' : Progress}
  {rest : List WalkAction} {action : WalkAction}

theorem sound_mono (h : Sound root limit p action) (hdone : done p ≤ done p')
    (hhandled : p.handled ⊆ p'.handled) : Sound root limit p' action := by
  cases action with
  | visit n context id => exact ⟨h.1, h.2.trans (Nat.add_le_add_left hdone n)⟩
  | held n context id => exact ⟨h.1, h.2.1.trans (Nat.add_le_add_left hdone n), hhandled h.2.2⟩
  | nested n context => exact ⟨h.1, h.2.trans (Nat.add_le_add_left hdone n)⟩
  | _ => trivial

theorem done_eq (hentered : p'.entered = p.entered) (hhandled : p'.handled = p.handled) : done p' = done p := by
  rw [done, hentered, hhandled, done]

/-- The new actions are sound, and nothing is left for later where nobody comes back
    to it. -/
structure Continues (root : Scope) (limit : Nat) (rest : List WalkAction) (next : List WalkAction × Progress) :
    Prop where
  disciplined : Disciplined (next.1 ++ rest) next.2.deferred
  sound : ∀ action ∈ next.1, Sound root limit next.2 action

theorem visitAll_sound {visits : List (Context × PairId)} (hroot : ∀ v ∈ visits, v.1.root = root)
    (hdepth : limit ≤ n + done p) : ∀ action ∈ visitAll n visits, Sound root limit p action := by
  intro action haction
  obtain ⟨v, hv, rfl⟩ := mem_map.mp haction
  exact ⟨hroot v hv, hdepth⟩

theorem visits_root {t : PairTree} (hroot : context.root = root) : ∀ v ∈ visits t context id, v.1.root = root := by
  intro v hv
  simp only [visits, mem_append, mem_map] at hv
  rcases hv with ⟨c, -, rfl⟩ | ⟨c, -, rfl⟩ <;> exact hroot

theorem ofEntering_continues (hroot : context.root = root) (hdepth : limit ≤ n + 1 + done p)
    (hrest : Disciplined rest p.deferred) : Continues root limit rest (ofEntering n context id p) := by
  unfold ofEntering
  split
  · exact ⟨hrest, fun _ haction => absurd haction not_mem_nil⟩
  · have hnoted := openDefinition_noted p context.branch id
    generalize p.openDefinition context.branch id = opened at *
    have hopened : limit ≤ n + done opened := by
      rw [done, hnoted.entered_eq, hnoted.handled_eq]
      simp only [done, length_cons] at hdepth ⊢
      omega
    constructor
    · simp only [append_assoc, disciplined_visitAll]
      rw [hnoted.deferred_eq]
      exact ⟨Option.some_ne_none _, rfl, hrest⟩
    · intro action haction
      rcases mem_append.mp haction with haction | haction
      · have hinside : (context.inside opened.tree id).root = root := hroot
        exact visitAll_sound (visits_root hinside) hopened action haction
      · rcases mem_pair.mp haction with rfl | rfl
        · exact ⟨hroot, hopened⟩
        · trivial

section

variable (n context)

theorem ofEntering_advances (id : PairId) (p : Progress) : (ofEntering n context id p).2.handled = p.handled ∧
      p.entered.length ≤ (ofEntering n context id p).2.entered.length := by
  unfold ofEntering
  split
  · exact ⟨rfl, le_rfl⟩
  · have hnoted := openDefinition_noted p context.branch id
    refine ⟨hnoted.handled_eq, ?_⟩
    rw [hnoted.entered_eq]
    exact Nat.le_succ _

/-- A usage is told what it is tied to, or nothing is found, and then at most its arguments are left to be checked.
    Or the definition that is found is entered. -/
theorem ofTie_cases (husage : (p.tree.kind id).isAliasUsage) : (∃ found : Option PairId, ∃ q, Alike p q ∧
      ofTie n context id p = (found.toList.map (check context.branch id), q)) ∨
    ∃ e q, context.scope.aliasFor? (p.tree.get id).nameText = some e ∧ Alike p q ∧
      ofTie n context id p = ((ofEntering n (context.around q.tree e) e q).1 ++ [check context.branch id e],
        (ofEntering n (context.around q.tree e) e q).2) := by
  cases he : context.scope.aliasFor? (p.tree.get id).nameText with
  | none =>
    refine .inl ⟨none, _, reportName_alike p context.branch .aliasIsNotDefined id, ?_⟩
    simp only [ofTie, he, Option.toList_none, map_nil]
  | some e =>
    have htie := tie_alike husage e
    by_cases hchain : context.chain.contains e = true
    · refine .inl ⟨e, _, htie.trans (closeCircle_alike context e _), ?_⟩
      simp only [ofTie, he, hchain, if_true, nil_append, Option.toList_some, map_singleton]
    by_cases hentered : (p.tie id e).entered.contains e = true
    · refine .inl ⟨e, _, htie, ?_⟩
      simp only [ofTie, he, hchain, hentered, Bool.false_eq_true, if_false, if_true, nil_append, Option.toList_some,
        map_singleton]
    refine .inr ⟨e, _, rfl, htie.trans (announceAround_noted _ context.branch e).alike, ?_⟩
    simp only [ofTie, he, hchain, hentered, Bool.false_eq_true, if_false]

/-- To tie a usage makes no pair handled, and may open a definition. -/
theorem ofTie_advances (husage : (p.tree.kind id).isAliasUsage) :
    (ofTie n context id p).2.handled = p.handled ∧ p.entered.length ≤ (ofTie n context id p).2.entered.length := by
  rcases ofTie_cases n context husage with ⟨found, q, halike, heq⟩ | ⟨e, q, -, halike, heq⟩
  · rw [heq]
    exact ⟨halike.handled_eq, (congrArg _ halike.entered_eq.symm).le⟩
  · rw [heq]
    obtain ⟨hhandled, hentered⟩ := ofEntering_advances n (context.around q.tree e) e q
    exact ⟨hhandled.trans halike.handled_eq, halike.entered_eq ▸ hentered⟩

end

theorem ofTie_continues (husage : (p.tree.kind id).isAliasUsage) (hroot : context.root = root)
    (hdepth : limit ≤ n + done p) (hrest : Disciplined rest p.deferred) :
    Continues root limit rest (ofTie n context id p) := by
  rcases ofTie_cases n context husage with ⟨found, q, halike, heq⟩ | ⟨e, q, -, halike, heq⟩
  · rw [heq]
    refine ⟨?_, fun action haction => ?_⟩
    · cases found <;> exact halike.deferred_eq ▸ hrest
    · obtain ⟨e, -, rfl⟩ := mem_map.mp haction
      trivial
  · rw [heq]
    have hdone : done q = done p := done_eq halike.entered_eq halike.handled_eq
    have hbelow : Disciplined (check context.branch id e :: rest) q.deferred := halike.deferred_eq ▸ hrest
    have henter : Continues root limit (check context.branch id e :: rest)
      (ofEntering n (context.around q.tree e) e q) :=
      ofEntering_continues hroot (by omega) hbelow
    refine ⟨?_, forall_mem_append.mpr ⟨henter.sound, forall_mem_singleton.mpr trivial⟩⟩
    rw [append_assoc]
    exact henter.disciplined

theorem ofHandling_advances (n : Nat) (context : Context) (id : PairId) (p : Progress) :
    (ofHandling n context id p).2.handled = id :: p.handled ∧
      p.entered.length ≤ (ofHandling n context id p).2.entered.length := by
  have hbegin := beginPair_noted p context.branch id
  unfold ofHandling
  dsimp only
  split
  · rename_i husage
    obtain ⟨hhandled, hentered⟩ := ofTie_advances n context husage
    exact ⟨hhandled.trans hbegin.handled_eq, hbegin.entered_eq ▸ hentered⟩
  · have hnote := noteKind_noted (p.beginPair context.branch id) context.branch
      ((p.beginPair context.branch id).tree.enter id context.scope) id
    exact ⟨hnote.handled_eq.trans hbegin.handled_eq, (congrArg _ (hnote.entered_eq.trans hbegin.entered_eq).symm).le⟩

theorem ofHandling_continues (hroot : context.root = root) (hdepth : limit ≤ n + 1 + done p)
    (hrest : Disciplined rest p.deferred) : Continues root limit rest (ofHandling n context id p) := by
  obtain ⟨hhandled, hentered⟩ := ofHandling_advances n context id p
  have hlast : ∀ inner, ∀ action ∈ [held n { context with scope := inner } id, settle id],
      Sound root limit (ofHandling n context id p).2 action := by
    intro inner action haction
    rcases mem_pair.mp haction with rfl | rfl
    · refine ⟨hroot, ?_, hhandled ▸ mem_cons_self⟩
      simp only [done, hhandled, length_cons] at hdepth ⊢
      omega
    · trivial
  have hbegin := beginPair_noted p context.branch id
  have hdeferred : (p.beginPair context.branch id).deferred = p.deferred := hbegin.deferred_eq
  have hdone : limit ≤ n + done (p.beginPair context.branch id) := by
    have hentered : (p.beginPair context.branch id).entered = p.entered := hbegin.entered_eq
    have hhandled : (p.beginPair context.branch id).handled = id :: p.handled := hbegin.handled_eq
    simp only [done, hentered, hhandled, length_cons] at hdepth ⊢
    omega
  unfold ofHandling at hlast ⊢
  dsimp only at hlast ⊢
  generalize p.beginPair context.branch id = p₁ at *
  split
  · rename_i husage
    rw [if_pos husage] at hlast
    have htie : Continues root limit
        (held n { context with scope := p₁.tree.enter id context.scope } id :: settle id :: rest)
        (ofTie n context id p₁) := ofTie_continues husage hroot hdone (hdeferred ▸ hrest)
    refine ⟨?_, fun action haction => ?_⟩
    · rw [append_assoc]
      exact htie.disciplined
    · exact (mem_append.mp haction).elim (htie.sound action) (hlast _ action)
  · rename_i husage
    rw [if_neg husage] at hlast
    have hnote := noteKind_noted p₁ context.branch (p₁.tree.enter id context.scope) id
    exact ⟨hnote.deferred_eq.trans hdeferred ▸ hrest, hlast _⟩

theorem perform_advances (action : WalkAction) (p : Progress) :
    p.handled ⊆ (action.perform p).2.handled ∧ done p ≤ done (action.perform p).2 := by
  have hnoted : ∀ {p p' : Progress}, Noted p p' → p.handled ⊆ p'.handled ∧ done p ≤ done p' :=
    fun h => ⟨h.handled_eq ▸ List.Subset.refl _, (done_eq h.entered_eq h.handled_eq).symm.le⟩
  cases action with
  | visit n context id =>
    cases n with
    | zero => exact ⟨List.Subset.refl _, le_rfl⟩
    | succ n =>
      simp only [WalkAction.perform, ofVisit]
      split
      · split
        · exact ⟨List.Subset.refl _, le_rfl⟩
        · obtain ⟨hhandled, hentered⟩ := ofEntering_advances n { context with chain := [] } id p
          refine ⟨hhandled ▸ List.Subset.refl _, ?_⟩
          rw [done, done, hhandled]
          exact Nat.add_le_add_left hentered _
      · obtain ⟨hhandled, hentered⟩ := ofHandling_advances n context id p
        refine ⟨hhandled ▸ subset_cons_self _ _, ?_⟩
        rw [done, done, hhandled]
        exact Nat.add_le_add (Nat.le_succ _) hentered
  | settle id => exact hnoted (settleValueKind_noted p id)
  | check branch u e => exact hnoted (checkArguments_noted p branch u e)
  | leave id outer =>
    have hsettle := hnoted (settleValueKind_noted p id)
    exact hsettle
  | _ => exact ⟨List.Subset.refl _, le_rfl⟩

theorem perform_continues {action : WalkAction} (hsound : Sound root limit p action)
    (hdisciplined : Disciplined (action :: rest) p.deferred) :
    Continues root limit rest (action.perform p) := by
  cases action with
  | visit n context id =>
    cases n with
    | zero => exact ⟨hdisciplined, nofun⟩
    | succ n =>
      simp only [WalkAction.perform, ofVisit]
      split
      · split
        · rename_i hlater
          rw [hlater] at hdisciplined
          exact ⟨disciplined_some hdisciplined, nofun⟩
        · exact ofEntering_continues hsound.1 hsound.2 hdisciplined
      · exact ofHandling_continues hsound.1 hsound.2 hdisciplined
  | held n context id =>
    refine ⟨(disciplined_visitAll n _).mpr hdisciplined, visitAll_sound (visits_root ?_) hsound.2.1⟩
    exact hsound.1
  | settle id => exact ⟨(settleValueKind_noted p id).deferred_eq ▸ hdisciplined, nofun⟩
  | check branch u e => exact ⟨(checkArguments_noted p branch u e).deferred_eq ▸ hdisciplined, nofun⟩
  | nested n context =>
    refine ⟨(disciplined_visitAll n _).mpr hdisciplined.2, visitAll_sound (fun v hv => ?_) hsound.2⟩
    obtain ⟨d, -, rfl⟩ := mem_map.mp hv
    exact hsound.1
  | leave id outer => exact ⟨hdisciplined.2, nofun⟩

end

theorem Step.orderly (hstep : Step m m') (horderly : m.Orderly root limit) : m'.Orderly root limit := by
  obtain ⟨action, rest, p⟩ := hstep
  have hcontinues := perform_continues (horderly.sound action mem_cons_self) horderly.disciplined
  obtain ⟨hhandled, hdone⟩ := perform_advances action p
  refine ⟨hcontinues.disciplined, fun other hother => ?_⟩
  rcases mem_append.mp hother with hother | hother
  · exact hcontinues.sound other hother
  · exact sound_mono (horderly.sound other (mem_cons_of_mem _ hother)) hdone hhandled

end PairMarkup.Config
