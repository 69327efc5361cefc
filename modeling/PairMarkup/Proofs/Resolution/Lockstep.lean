import PairMarkup.Proofs.Resolution.Mirroring
import PairMarkup.Proofs.Resolution.Namespaces
import PairMarkup.Proofs.Resolution.Overlooked

namespace PairMarkup

open List Progress Kind Config

/-- Both walks come to a place in the same way, in scopes that give the same answers. -/
structure Context.Matches (c c' : Context) : Prop where
  root_eq : c'.root = c.root
  scope : c.scope.SameNames c'.scope
  chain_eq : c'.chain = c.chain

theorem Context.Matches.resume {c c' : Context} (h : c.Matches c') {t₀ : PairTree} {d d' : Deferred}
    (hd : d.Matches t₀ d') :
    (c.resume d).Matches (c'.resume d') := ⟨h.root_eq, hd.scope, rfl⟩

namespace WalkAction

open PairTree

/-- The same action on the other side, where the walk may go two pairs deeper. -/
inductive Matches (t₀ : PairTree) (s : PairId) (φ : Equiv.Perm PairId) (t : PairTree) : WalkAction → WalkAction → Prop
  | visit {n : Nat} {c c' : Context} {x : PairId} :
      x < t.size → c.Matches c' → Matches t₀ s φ t (visit n c x) (visit (n + 2) c' (φ x))
  | held {n : Nat} {c c' : Context} {x : PairId} :
      t.Untouched s x → c.Matches c' → Matches t₀ s φ t (held n c x) (held (n + 2) c' (φ x))
  | settle {x : PairId} : t.Untouched s x → Matches t₀ s φ t (settle x) (settle (φ x))
  | check {branch branch' : Option Branch} {usage usage' definition definition' : PairId} :
      Matches t₀ s φ t (check branch usage definition) (check branch' usage' definition')
  | nested {n : Nat} {c c' : Context} : c.Matches c' → Matches t₀ s φ t (nested n c) (nested (n + 2) c')
  | leave {x : PairId} {outer outer' : Option (List Deferred)} :
      t.Untouched s x → Option.Rel (List.Forall₂ (Deferred.Matches t₀)) outer outer' →
      Matches t₀ s φ t (leave x outer) (leave (φ x) outer')

variable {s x : PairId} {φ φ' : Equiv.Perm PairId} {t₀ t t' : PairTree} {p q : Progress} {c c' : Context}
  {action action' : WalkAction}

theorem Matches.mono (h : Matches t₀ s φ t action action')
    (hold : ∀ y, y < t.size → φ' y = φ y) (hsize : t.size ≤ t'.size)
    (huntouched : ∀ y, t.Untouched s y → t'.Untouched s y) : Matches t₀ s φ' t' action action' := by
  cases h with
  | visit hx hc =>
    rw [← hold _ hx]
    exact .visit (hx.trans_le hsize) hc
  | held hx hc =>
    rw [← hold _ hx.1]
    exact .held (huntouched _ hx) hc
  | settle hx =>
    rw [← hold _ hx.1]
    exact .settle (huntouched _ hx)
  | check => exact .check
  | nested hc => exact .nested hc
  | leave hx houter =>
    rw [← hold _ hx.1]
    exact .leave (huntouched _ hx) houter

/-- What is to be done next, and how far the walk has come, on both sides. -/
structure AllMatch (t₀ : PairTree) (s : PairId) (φ : Equiv.Perm PairId) (next next' : List WalkAction × Progress) :
    Prop where
  progress : next.2.Mirrors t₀ s φ next'.2
  actions : List.Forall₂ (Matches t₀ s φ next.2.tree) next.1 next'.1

theorem AllMatch.append {next next' more more' : List WalkAction} (h : AllMatch t₀ s φ (next, p) (next', q))
    (hmore : List.Forall₂ (Matches t₀ s φ p.tree) more more') :
    AllMatch t₀ s φ (next ++ more, p) (next' ++ more', q) :=
  ⟨h.progress, rel_append h.actions hmore⟩

theorem visits_match (h : p.Mirrors t₀ s φ q) (n : Nat) (hx : p.tree.Untouched s x) (hc : c.Matches c') :
    List.Forall₂ (Matches t₀ s φ p.tree) (visitAll n (visits p.tree c x))
      (visitAll (n + 2) (visits q.tree c' (φ x))) := by
  have hlt : ∀ y ∈ (p.tree.get x).held, y < p.tree.size := fun y => h.wellFormed.held_lt_size
  have hitems : (q.tree.get (φ x)).items.getD [] = ((p.tree.get x).items.getD []).map φ := by
    rw [h.items_eq hx]
    cases (p.tree.get x).items <;> rfl
  rw [visitAll, visitAll, visits, visits, map_append, map_append, h.children_eq hx, hitems]
  refine rel_append ?_ ?_
  · simp only [map_map, forall₂_map_left_iff, forall₂_map_right_iff, forall₂_same]
    exact fun y hy => .visit (hlt y (mem_held_of_mem_children hy)) ⟨hc.root_eq, hc.scope, hc.chain_eq⟩
  · simp only [map_map, forall₂_map_left_iff, forall₂_map_right_iff, forall₂_same]
    exact fun y hy => .visit (hlt y (mem_append_right _ hy)) hc

theorem ofEntering_match (n : Nat) (h : p.Mirrors t₀ s φ q) (hc : c.Matches c')
    (hdef : (p.tree.kind x).isAliasDefinition) :
    AllMatch t₀ s φ (ofEntering n c x p) (ofEntering (n + 2) c' x q) := by
  have hlt := lt_size_of_definition hdef
  have hfixed : φ x = x := h.fixed rfl hlt hdef
  unfold ofEntering
  rw [h.entered_eq]
  by_cases hentered : p.entered.contains x = true
  · rw [if_pos hentered, if_pos hentered]
    exact ⟨h, .nil⟩
  · rw [if_neg hentered, if_neg hentered]
    have hopened := h.openDefinition c.branch c'.branch x
    have hshape := (openDefinition_noted p c.branch x).shape_eq
    dsimp only
    generalize p.openDefinition c.branch x = p₁ at hopened hshape ⊢
    generalize q.openDefinition c'.branch x = q₁ at hopened ⊢
    have hx : p₁.tree.Untouched s x := by
      refine .of_kind (size_eq_of_shape hshape ▸ hlt) ?_
      exact (isScope_eq_of_shape hshape x).trans (not_scope_of_definition hdef)
    have hnames := hopened.enter_sameNames hx hc.scope
    rw [hfixed] at hnames
    have hinside : (c.inside p₁.tree x).Matches (c'.inside q₁.tree x) :=
      ⟨hc.root_eq, hnames, congrArg (· ++ [x]) hc.chain_eq⟩
    have hvisits := visits_match hopened n hx hinside
    have hleave := Matches.leave (φ := φ) hx h.deferred
    rw [hfixed] at hvisits hleave
    exact AllMatch.append ⟨hopened, hvisits⟩ (.cons (.nested hc) (.cons hleave .nil))

/-- What the name of a usage stands for is a definition, and it does not matter for the names around that
    whether the scope is split. -/
structure Clear (s : PairId) (p : Progress) (c : Context) (d : PairId) : Prop where
  definition : (p.tree.kind d).isAliasDefinition = true
  around : ∀ t : PairTree, t.shape = p.tree.shape →
    (t.scopeAround c.root d).SameNames ((t.splitScope s).scopeAround c.root d)

theorem ofTie_match (n : Nat) (h : p.Mirrors t₀ s φ q) (hc : c.Matches c') (hx : x < p.tree.size)
    (husage : (p.tree.kind x).isAliasUsage)
    (hclear : ∀ d, c.scope.aliasFor? (p.tree.get x).nameText = some d → Clear s p c d) :
    AllMatch t₀ s φ (ofTie n c x p) (ofTie (n + 2) c' (φ x) q) := by
  have huntouched : p.tree.Untouched s x := .of_kind hx (not_scope_of_usage husage)
  have hname := h.get_eq Pair.nameText (fun _ => rfl) (fun _ _ _ _ => rfl) huntouched
  unfold ofTie
  rw [hname, hc.scope.aliases]
  cases hfound : c.scope.aliasFor? (p.tree.get x).nameText with
  | none => exact ⟨h.quiet (reportName_quiet ..) (reportName_quiet ..), .nil⟩
  | some d =>
    have hd := hclear d hfound
    have htied := h.tie hx husage d
    have hshape := (tie_alike husage d).shape_eq
    dsimp only
    refine AllMatch.append ?_ (.cons .check .nil)
    rw [Prod.eta, Prod.eta]
    generalize p.tie x d = p₁ at htied hshape ⊢
    generalize q.tie (φ x) d = q₁ at htied ⊢
    rw [hc.chain_eq, htied.entered_eq]
    by_cases hchain : c.chain.contains d = true
    · rw [if_pos hchain, if_pos hchain]
      exact ⟨htied.closeCircle hc.chain_eq d, .nil⟩
    · rw [if_neg hchain, if_neg hchain]
      by_cases hentered : p₁.entered.contains d = true
      · rw [if_pos hentered, if_pos hentered]
        exact ⟨htied, .nil⟩
      · rw [if_neg hentered, if_neg hentered]
        have hquiet := announceAround_quiet p₁ c.branch d
        have hannounced := htied.quiet hquiet (announceAround_quiet q₁ c'.branch d)
        generalize p₁.announceAround c.branch d = p₂ at hquiet hannounced ⊢
        generalize q₁.announceAround c'.branch d = q₂ at hannounced ⊢
        have hshape₂ : p₂.tree.shape = p.tree.shape := hquiet.shape_eq.trans hshape
        have hdef₂ := (isAliasDefinition_eq_of_shape hshape₂ d).trans hd.definition
        have hfixed : φ d = d := hannounced.fixed rfl (lt_size_of_definition hdef₂) hdef₂
        refine ofEntering_match n hannounced ⟨hc.root_eq, ?_, hc.chain_eq⟩ hdef₂
        have hnames := hd.around p₂.tree hshape₂
        rw [← hannounced.tree.scopeAround_eq hannounced.wellFormed_split, hfixed] at hnames
        rw [Context.around, Context.around, hc.root_eq]
        exact hnames

theorem Clear.of_shape {d : PairId} (h : Clear s p c d) {p' : Progress} (hshape : p'.tree.shape = p.tree.shape) :
    Clear s p' c d where
  definition := (isAliasDefinition_eq_of_shape hshape d).trans h.definition
  around t ht := h.around t (ht.trans hshape)

/-- What is done next on both sides, where new elements may have been given numbers. All that was there
    before keeps its counterpart. -/
def Follow (t₀ : PairTree) (s : PairId) (φ : Equiv.Perm PairId) (p : Progress)
    (next next' : List WalkAction × Progress) : Prop :=
  ∃ φ', AllMatch t₀ s φ' next next' ∧ (∀ y, y < p.tree.size → φ' y = φ y) ∧
    p.tree.size ≤ next.2.tree.size ∧ ∀ y, p.tree.Untouched s y → next.2.tree.Untouched s y

theorem AllMatch.follow {next next' : List WalkAction × Progress} (h : AllMatch t₀ s φ next next')
    (hshape : next.2.tree.shape = p.tree.shape) : Follow t₀ s φ p next next' :=
  ⟨φ, h, fun _ _ => rfl, (size_eq_of_shape hshape).symm.le, fun _ hy => hy.of_shape hshape⟩

/-- What is done with a pair that has begun. -/
def ofBegun (depth : Nat) (context : Context) (id : PairId) (p : Progress) : List WalkAction × Progress :=
  let inner := p.tree.enter id context.scope
  let next :=
    if (p.tree.kind id).isAliasUsage then ofTie depth context id p
    else ([], p.noteKind context.branch inner id)
  (next.1 ++ [held depth { context with scope := inner } id, settle id], next.2)

section

variable (n : Nat)

theorem ofBegun_shape (c : Context) (x : PairId) (p : Progress) : (ofBegun n c x p).2.tree.shape = p.tree.shape := by
  unfold ofBegun
  dsimp only
  split
  · rename_i husage
    exact ofTie_shape n c husage
  · exact (noteKind_noted ..).shape_eq

theorem ofBegun_match (h : p.Mirrors t₀ s φ q) (hc : c.Matches c') (hx : p.tree.Untouched s x)
    (hclear : (p.tree.kind x).isAliasUsage → ∀ d,
      c.scope.aliasFor? (p.tree.get x).nameText = some d → Clear s p c d) :
    AllMatch t₀ s φ (ofBegun n c x p) (ofBegun (n + 2) c' (φ x) q) := by
  have hnames := h.enter_sameNames hx hc.scope
  have hinner : { c with scope := p.tree.enter x c.scope }.Matches
      { c' with scope := q.tree.enter (φ x) c'.scope } := ⟨hc.root_eq, hnames, hc.chain_eq⟩
  have hfinish : ∀ {next next' : List WalkAction × Progress}, AllMatch t₀ s φ next next' →
      next.2.tree.shape = p.tree.shape →
      AllMatch t₀ s φ (next.1 ++ [held n { c with scope := p.tree.enter x c.scope } x, settle x], next.2)
        (next'.1 ++ [held (n + 2) { c' with scope := q.tree.enter (φ x) c'.scope } (φ x), settle (φ x)],
          next'.2) := by
    intro next next' hnext hshape
    have hx' := hx.of_shape hshape
    exact AllMatch.append hnext (.cons (.held hx' hinner) (.cons (.settle hx') .nil))
  unfold ofBegun
  dsimp only
  rw [h.flag_eq isAliasUsage_shape hx.1]
  by_cases husage : (p.tree.kind x).isAliasUsage = true
  · rw [if_pos husage, if_pos husage]
    exact hfinish (ofTie_match n h hc hx.1 husage (hclear husage)) (ofTie_shape n c husage)
  · rw [if_neg husage, if_neg husage]
    exact hfinish ⟨h.noteKind c.branch c'.branch hx hnames, .nil⟩ (noteKind_noted ..).shape_eq

theorem ofHandling_eq (c : Context) (x : PairId) (p : Progress) :
    ofHandling n c x p = ofBegun n c x (p.beginPair c.branch x) := rfl

/-- To handle a pair is to split it, as far as the tree is written. -/
theorem ofHandling_shape (c : Context) (x : PairId) (p : Progress) :
    (ofHandling n c x p).2.tree.shape = (p.tree.splitScope x).shape := by
  rw [ofHandling_eq]
  exact (ofBegun_shape n c x _).trans (beginPair_noted p c.branch x).shape_eq

variable (h : p.Mirrors t₀ s φ q) (hc : c.Matches c')

include h hc

theorem ofHandling_follow (hx : x < p.tree.size) (hclear : (p.tree.kind x).isAliasUsage → ∀ d,
      c.scope.aliasFor? (p.tree.get x).nameText = some d → Clear s p c d) :
    Follow t₀ s φ p (ofHandling n c x p) (ofHandling (n + 2) c' (φ x) q) := by
  obtain ⟨φ', hbegun, hold⟩ := h.beginPair c.branch c'.branch x
  have hbegin := (beginPair_noted p c.branch x).shape_eq
  have hshape := ofHandling_shape n c x p
  refine ⟨φ', ?_, hold, ?_, fun y hy => (hy.splitScope h.wellFormed x).of_shape hshape⟩
  · rw [← hold x hx] at hbegun ⊢
    rw [ofHandling_eq, ofHandling_eq]
    refine ofBegun_match n hbegun hc ((Untouched.of_splitScope h.wellFormed hx).of_shape hbegin) ?_
    intro husage d hd
    have husage₀ : (p.tree.kind x).isAliasUsage := by
      rw [← kind_splitScope h.wellFormed x hx]
      exact (isAliasUsage_eq_of_shape hbegin x).symm.trans husage
    rw [splitScope_of_usage husage₀] at hbegin
    rw [nameText_eq_of_shape hbegin] at hd
    exact (hclear husage₀ d hd).of_shape hbegin
  · rw [size_eq_of_shape hshape]
    exact size_le_splitScope h.wellFormed x

theorem ofVisit_follow (hx : x < p.tree.size)
    (hdefs : ∀ x, (p.tree.kind x).isAliasDefinition = (t₀.kind x).isAliasDefinition)
    (hclear : (p.tree.kind x).isAliasUsage → ∀ d,
      c.scope.aliasFor? (p.tree.get x).nameText = some d → Clear s p c d) :
    Follow t₀ s φ p (ofVisit n c x p) (ofVisit (n + 2) c' (φ x) q) := by
  unfold ofVisit
  rw [h.flag_eq isAliasDefinition_shape hx]
  by_cases hdef : (p.tree.kind x).isAliasDefinition = true
  · rw [if_pos hdef, if_pos hdef, h.fixed rfl hx hdef]
    obtain ⟨hp, hq⟩ | ⟨later, later', hp, hq, hmatch⟩ := h.deferred_cases
    · have hc' : { c with chain := [] }.Matches { c' with chain := [] } := ⟨hc.root_eq, hc.scope, rfl⟩
      have hentering := ofEntering_match n h hc' hdef
      rw [hp, hq]
      exact hentering.follow (ofEntering_shape ..)
    · have hx' : Deferred.Matches t₀ ⟨x, c.scope, c.branch⟩ ⟨x, c'.scope, c'.branch⟩ :=
        ⟨(hdefs x).symm.trans hdef, rfl, hc.scope⟩
      have hmore := rel_append hmatch (.cons hx' .nil)
      rw [hp, hq]
      exact AllMatch.follow ⟨⟨h.wellFormed, h.tree, h.modules_eq, h.entered_eq, .some hmore⟩, .nil⟩ rfl
  · rw [if_neg hdef, if_neg hdef]
    exact ofHandling_follow n h hc hx hclear

theorem nested_match (hdefs : ∀ x, (p.tree.kind x).isAliasDefinition = (t₀.kind x).isAliasDefinition) :
    List.Forall₂ (Matches t₀ s φ p.tree) (visitAll n ((p.deferred.getD []).map fun d => (c.resume d, d.definition)))
      (visitAll (n + 2) ((q.deferred.getD []).map fun d => (c'.resume d, d.definition))) := by
  obtain ⟨hp, hq⟩ | ⟨later, later', hp, hq, hmatch⟩ := h.deferred_cases
  · rw [hp, hq]
    exact .nil
  · rw [hp, hq]
    simp only [Option.getD_some, visitAll, map_map, forall₂_map_left_iff, forall₂_map_right_iff]
    refine hmatch.imp fun d d' hd => ?_
    have hdef := (hdefs d.definition).trans hd.definition
    have hlt := lt_size_of_definition hdef
    have hvisit : Matches t₀ s φ p.tree (visit n (c.resume d) d.definition)
        (visit (n + 2) (c'.resume d') (φ d.definition)) := .visit hlt (hc.resume hd)
    rw [h.fixed rfl hlt hdef] at hvisit
    dsimp only [Function.comp_apply]
    rw [hd.definition_eq]
    exact hvisit

end

/-- The action and its counterpart do the same, as long as a visit may still go deeper. -/
theorem perform_follow (h : p.Mirrors t₀ s φ q) (haction : Matches t₀ s φ p.tree action action')
    (hdeep : ∀ c x, action ≠ visit 0 c x)
    (hdefs : ∀ x, (p.tree.kind x).isAliasDefinition = (t₀.kind x).isAliasDefinition)
    (htied : ∀ x d, p.tree.kind x = .aliasUsage (some d) → (p.tree.kind d).isAliasDefinition)
    (hclear : ∀ n c x, action = visit n c x → (p.tree.kind x).isAliasUsage → ∀ d,
      c.scope.aliasFor? (p.tree.get x).nameText = some d → Clear s p c d) :
    Follow t₀ s φ p (action.perform p) (action'.perform q) := by
  cases haction with
  | @visit n c c' x hx hc =>
    cases n with
    | zero => exact absurd rfl (hdeep c x)
    | succ n => exact ofVisit_follow n h hc hx hdefs (hclear _ c x rfl)
  | @held n c c' x hx hc =>
    have hopen := h.openScope_sameNames hx hc.scope
    exact AllMatch.follow ⟨h, visits_match h n hx ⟨hc.root_eq, hopen, hc.chain_eq⟩⟩ rfl
  | @settle x hx =>
    exact AllMatch.follow ⟨h.settleValueKind hx (htied x), .nil⟩ (settleValueKind_noted ..).shape_eq
  | check =>
    have hquiet := checkArguments_quiet p
    exact AllMatch.follow ⟨h.quiet (hquiet ..) (checkArguments_quiet ..), .nil⟩ (hquiet ..).shape_eq
  | @nested n c c' hc =>
    have hdone : Mirrors t₀ s φ { p with deferred := none } { q with deferred := none } :=
      ⟨h.wellFormed, h.tree, h.modules_eq, h.entered_eq, .none⟩
    exact AllMatch.follow ⟨hdone, nested_match n h hc hdefs⟩ rfl
  | @leave x outer outer' hx houter =>
    have hsettled := h.settleValueKind hx (htied x)
    exact AllMatch.follow ⟨⟨hsettled.wellFormed, hsettled.tree, hsettled.modules_eq, hsettled.entered_eq, houter⟩,
      .nil⟩ (settleValueKind_noted ..).shape_eq

end WalkAction

end PairMarkup
