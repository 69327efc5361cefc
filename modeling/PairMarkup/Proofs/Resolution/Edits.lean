import PairMarkup.Proofs.Resolution.Simulation

namespace PairMarkup

open Relation Kind Config Progress

/-- The codes of the findings about a pair that needs something which is not there: an alias, a namespace or a
    usage to be an argument of. -/
def Code.IsAboutNeed (code : Code) : Prop :=
  code = .aliasIsNotDefined ∨ code = .namespacePrefixNotDefined ∨ code = .argumentMustBeDefinedInAlias

instance (code : Code) : Decidable code.IsAboutNeed := inferInstanceAs (Decidable (_ ∨ _))

theorem Code.IsAboutArguments.not_isAboutNeed {code : Code} (h : code.IsAboutArguments) : ¬ code.IsAboutNeed := by
  rintro (rfl | rfl | rfl)
  · exact absurd h (by decide)
  · exact absurd h (by decide)
  · exact absurd h (by decide)

/-- Whether a pair of the kind may be found to need what the code is about. -/
def Kind.MayNeed (kind : Kind) (code : Code) : Prop :=
  kind.isComment = false ∧ (code = .namespacePrefixNotDefined → kind.hasNamespace = true)

/-- What the walk may change in a pair, with more allowed when the pair is `handled`. -/
inductive Pair.Change (handled : Prop) (pair : Pair) : Pair → Prop
  | inform (f : DefinitionInfo → DefinitionInfo) : Change handled pair (pair.mapInfo f)
  | tie (definition : PairId) : pair.kind.isAliasUsage = true →
      Change handled pair { pair with kind := .aliasUsage (some definition) }
  | liken (valueKind : ValueKind) : pair.kind.isAliasUsage = true → Change handled pair { pair with valueKind }
  | empty : pair.valueKind = .object → Change handled pair { pair with valueKind := .empty }
  | locate (namespaceUri : Option String) : handled → Change handled pair { pair with namespaceUri }
  | bind {definition : Option PairId} {place : Place} (definition' : Option PairId) : handled →
      pair.kind = .parameter definition place →
      Change handled pair { pair with kind := .parameter definition' place }

namespace Progress

/-- One thing that the walk does. `reports` tells what may be reported, and `handles` which pairs are handled. -/
inductive Edit (reports : Option Branch → Code → PairId → Prop) (handles : PairId → Prop) (p : Progress) :
    Progress → Prop
  /-- Books are kept beside the modules and the findings. -/
  | book {p' : Progress} : p'.set = p.set → p'.findings = p.findings → Edit reports handles p p'
  | report {branch : Option Branch} {code : Code} {subject : PairId} (arguments : List String) (span : Span) :
      reports branch code subject → Edit reports handles p (p.report branch code arguments subject span)
  | change {id : PairId} {f : Pair → Pair} : (p.tree.get id).Change (handles id) (f (p.tree.get id)) →
      Edit reports handles p (p.modify id f)
  | split (id : PairId) : p.tree.WellFormed → Edit reports handles p (p.splitScope id)

def Edits (reports : Option Branch → Code → PairId → Prop) (handles : PairId → Prop) : Progress → Progress → Prop :=
  Relation.ReflTransGen (Edit reports handles)

namespace Edits

variable {reports : Option Branch → Code → PairId → Prop} {handles : PairId → Prop} {p p' p'' : Progress}

theorem refl (p : Progress) : Edits reports handles p p := ReflTransGen.refl

theorem single (h : Edit reports handles p p') : Edits reports handles p p' := ReflTransGen.single h

theorem trans (h : Edits reports handles p p') (h' : Edits reports handles p' p'') :
    Edits reports handles p p'' := ReflTransGen.trans h h'

end Edits

section

variable {reports : Option Branch → Code → PairId → Prop} {handles : PairId → Prop}
  (hreports : ∀ branch code subject, ¬ code.IsAboutNeed → reports branch code subject) (p : Progress)
  (branch : Option Branch) (id : PairId)

include hreports

theorem lenient_edits : Lenient (¬ ·.IsAboutNeed) (fun f => ∃ g, f = Pair.mapInfo g) (Edits reports handles) where
  refl := .refl
  trans := .trans
  report _ branch code arguments subject span hcode :=
    .single (.report arguments span (hreports branch code subject hcode))
  modify _ _ f hf := by
    obtain ⟨g, rfl⟩ := hf
    exact .single (.change (.inform g))

theorem announce_edits : Edits reports handles p (p.announce branch id) :=
  (lenient_edits hreports).announce p branch id (fun _ _ => .single (.book rfl rfl)) (by decide) (by decide)

omit hreports in
theorem tie_edits {p : Progress} {usage : PairId} (husage : (p.tree.kind usage).isAliasUsage)
    (definition : PairId) : Edits reports handles p (p.tie usage definition) :=
  .single (.change (.tie definition husage))

omit hreports in
theorem settleValueKind_edits (p : Progress) (id : PairId) : Edits reports handles p (p.settleValueKind id) := by
  simp only [settleValueKind]
  split
  · rename_i definition hkind
    split
    · exact .single (.change (.liken _ (by rw [hkind]; rfl)))
    · exact .refl p
  · split
    · rename_i hcond
      simp only [Bool.and_eq_true, decide_eq_true_eq] at hcond
      exact .single (.change (.empty hcond.1.1.1))
    · exact .refl p

theorem openDefinition_edits : Edits reports handles p (p.openDefinition branch id) := by
  have hopened : Edits reports handles p { p with entered := id :: p.entered, deferred := some [] } :=
    .single (.book rfl rfl)
  exact hopened.trans (.trans ((lenient_edits hreports).recordSignature _ branch id (by decide) fun f _ => ⟨f, rfl⟩)
    (announce_edits hreports _ branch id))

theorem beginPair_edits {p : Progress} (hwf : p.tree.WellFormed) (branch : Option Branch) (id : PairId) :
    Edits reports handles p (p.beginPair branch id) := by
  have hbegun : Edits reports handles p { p with handled := id :: p.handled } := .single (.book rfl rfl)
  have hsplit : Edits reports handles { p with handled := id :: p.handled }
      ({ p with handled := id :: p.handled }.splitScope id) := .single (.split id hwf)
  exact hbegun.trans (hsplit.trans (announce_edits hreports _ branch id))

/-- What the kind of a pair asks for is done to the pair itself, and the pair may need what is not there. -/
theorem noteKind_edits {p : Progress} {branch : Option Branch} {id : PairId} (hid : handles id)
    (hneed : ∀ code, (p.tree.kind id).MayNeed code → reports branch code id) (inner : Scope) :
    Edits reports handles p (p.noteKind branch inner id) := by
  have hneed' : ∀ code arguments span, (p.tree.kind id).MayNeed code →
      Edits reports handles p (p.report branch code arguments id span) := fun code _ _ h =>
    .single (.report _ _ (hneed code h))
  refine (lenient_edits hreports).noteKind p branch id (by decide) (fun hkind => hneed' _ _ _ ?_) (fun hkind => ?_)
    fun hkind => ?_
  · cases hk : p.tree.kind id <;> simp [hk, isArgument, Kind.MayNeed, isComment] at hkind ⊢
  · simp only [bindNamespace]
    split
    · split
      · exact .single (.change (.locate _ hid))
      · exact hneed' _ _ _ ⟨not_comment_of_hasNamespace hkind, fun _ => hkind⟩
    · exact .single (.change (.locate _ hid))
  · simp only [bindParameter]
    split
    · exact (lenient_edits hreports).report p branch _ _ _ (by decide)
    · refine .single (.change ?_)
      cases hpair : (p.tree.get id).kind <;> simp [PairTree.kind, hpair, isParameter] at hkind
      exact .bind _ hid hpair

end

end Progress

namespace WalkAction

open Progress PairTree

variable {reports : Option Branch → Code → PairId → Prop} {handles : PairId → Prop}
  (hreports : ∀ branch code subject, ¬ code.IsAboutNeed → reports branch code subject) {p : Progress}
  {context : Context} {id : PairId}

include hreports

theorem ofEntering_edits (n : Nat) (context : Context) (id : PairId) (p : Progress) :
    Edits reports handles p (ofEntering n context id p).2 := by
  unfold ofEntering
  split
  · exact .refl p
  · dsimp only
    exact openDefinition_edits hreports p context.branch id

theorem ofTie_edits (n : Nat) (husage : (p.tree.kind id).isAliasUsage)
    (hneed : reports context.branch .aliasIsNotDefined id) : Edits reports handles p (ofTie n context id p).2 := by
  unfold ofTie
  split
  · exact .single (.report _ _ hneed)
  · rename_i e _
    have htie : Edits reports handles p (p.tie id e) := tie_edits husage e
    dsimp only
    split
    · exact htie.trans ((lenient_edits hreports).foldl (fun p d _ =>
        (lenient_edits hreports).markCircular p context.branch d (by decide) ⟨_, rfl⟩) _)
    · split
      · exact htie
      · have haround : Edits reports handles (p.tie id e) ((p.tie id e).announceAround context.branch e) :=
          (lenient_edits hreports).announceAround _ context.branch e (fun _ _ => .single (.book rfl rfl))
            (by decide) (by decide)
        exact htie.trans (haround.trans (ofEntering_edits hreports n _ e _))

omit hreports in
/-- What kind of pair it is, as it is written, is not changed by looking at it. -/
theorem flag_beginPair {α : Type} (hwf : p.tree.WellFormed) (branch : Option Branch) (id : PairId) {f : Kind → α}
    (hshape : ∀ kind, f kind.shape = f kind) : f ((p.beginPair branch id).tree.kind id) = f (p.tree.kind id) := by
  rw [flag_eq_of_shape (beginPair_noted p branch id).shape_eq hshape]
  change f ((p.tree.splitScope id).kind id) = f (p.tree.kind id)
  by_cases hnamed : p.tree.NamedScope id
  · rw [(isSplit_splitScope hwf hnamed).kind_eq hnamed.lt_size.ne]
  · rw [splitScope_of_not hnamed]

theorem ofVisit_edits (hwf : p.tree.WellFormed) (n : Nat)
    (hhandles : (p.tree.kind id).isAliasDefinition = false → (p.tree.kind id).isAliasUsage = false → handles id)
    (hneed : ∀ code, (p.tree.kind id).MayNeed code → reports context.branch code id) :
    Edits reports handles p (ofVisit n context id p).2 := by
  have hbegin : Edits reports handles p (p.beginPair context.branch id) :=
    beginPair_edits hreports hwf context.branch id
  cases hdef : (p.tree.kind id).isAliasDefinition with
  | true =>
    simp only [ofVisit, hdef, if_true]
    split
    · exact .single (.book rfl rfl)
    · exact ofEntering_edits hreports n _ id p
  | false =>
    cases husage : (p.tree.kind id).isAliasUsage with
    | true =>
      rw [ofVisit_usage n context husage]
      refine hbegin.trans (ofTie_edits hreports n ?_ (hneed _ ⟨?_, Code.noConfusion⟩))
      · exact (flag_beginPair hwf context.branch id isAliasUsage_shape).trans husage
      · cases hkind : p.tree.kind id <;> simp [hkind, isAliasUsage, isComment] at husage ⊢
    | false =>
      rw [ofVisit_plain n context hwf hdef husage]
      refine hbegin.trans (noteKind_edits hreports (hhandles hdef husage) (fun code h => hneed code ?_) _)
      exact ⟨(flag_beginPair hwf context.branch id isComment_shape).symm.trans h.1, fun hcode =>
        (flag_beginPair hwf context.branch id hasNamespace_shape).symm.trans (h.2 hcode)⟩

omit hreports in
/-- A step of the walk is a row of edits. Only the visit to a pair other than a definition or a usage gives it a
    namespace or a binding, and only the visit to a pair tells what it needs. -/
theorem perform_edits (hwf : p.tree.WellFormed) (action : WalkAction) :
    Edits (fun branch code subject => code.IsAboutNeed → ∃ n context, action = .visit (n + 1) context subject ∧
        branch = context.branch ∧ (p.tree.kind subject).MayNeed code)
      (fun id => ∃ n context, action = .visit (n + 1) context id ∧
        (p.tree.kind id).isAliasDefinition = false ∧ (p.tree.kind id).isAliasUsage = false)
      p (action.perform p).2 := by
  cases action with
  | visit n context id =>
    cases n with
    | zero => exact .refl p
    | succ n =>
      refine ofVisit_edits (fun _ _ _ hnot hcode => absurd hcode hnot) hwf n
        (fun hdef husage => ⟨n, context, rfl, hdef, husage⟩) fun code hneed _ => ?_
      exact ⟨n, context, rfl, rfl, hneed⟩
  | held n context id => exact .refl p
  | settle id => exact settleValueKind_edits p id
  | check branch u e =>
    exact (lenient_edits fun _ _ _ hnot hcode => absurd hcode hnot).checkArguments p branch
      (fun _ => Code.IsAboutArguments.not_isAboutNeed) u e
  | nested n context => exact .single (.book rfl rfl)
  | leave id outer => exact (settleValueKind_edits p id).trans (.single (.book rfl rfl))

end WalkAction

theorem Config.start_edits {reports : Option Branch → Code → PairId → Prop} {handles : PairId → Prop} {set : ModuleSet}
    (hreports : ∀ branch code subject, ¬ code.IsAboutNeed → reports branch code subject) :
    Progress.Edits reports handles (initial set) (start set).progress :=
  (lenient_edits hreports).foldl (fun p id _ => announce_edits hreports p none id) _

end PairMarkup
