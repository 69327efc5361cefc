import PairMarkup.Proofs.Choices.Charting
import PairMarkup.Proofs.Resolution.Keeping

namespace PairMarkup

namespace PairTree

variable {t t' t'' : PairTree} {branch : Branch} {diagnostic : Diagnostic}

/-- The choice of the branch is among those of its document. -/
def HasChoice (t : PairTree) (branch : Branch) : Prop :=
  ∃ choices, (t.kind branch.document).choices? = some choices ∧ some branch.choice ∈ choices.nodes

/-- The diagnostic is noted at the choice of the branch, for its alternative. -/
def Records (t : PairTree) (branch : Branch) (diagnostic : Diagnostic) : Prop :=
  ∃ choices found, (t.kind branch.document).choices? = some choices ∧
    choices.find? branch.choice = some found ∧ ⟨branch.alternative, diagnostic⟩ ∈ found.errors

/-- Documents keep their choices and all that is noted there. -/
def Annotates (t t' : PairTree) : Prop := ∀ doc choices, (t.kind doc).choices? = some choices →
    ∃ choices', (t'.kind doc).choices? = some choices' ∧ choices.Extends choices'

theorem Annotates.of_same (h : ∀ x, (t'.kind x).choices? = (t.kind x).choices?) : t.Annotates t' :=
  fun doc choices hchoices => ⟨choices, (h doc).trans hchoices, .refl choices⟩

theorem Annotates.trans (h : t.Annotates t') (h' : t'.Annotates t'') : t.Annotates t'' := by
  intro doc choices hchoices
  obtain ⟨choices', hchoices', hmore⟩ := h doc choices hchoices
  obtain ⟨choices'', hchoices'', hmore'⟩ := h' doc choices' hchoices'
  exact ⟨choices'', hchoices'', hmore.trans hmore'⟩

theorem HasChoice.annotates (h : t.HasChoice branch) (hmore : t.Annotates t') : t'.HasChoice branch := by
  obtain ⟨choices, hchoices, hmem⟩ := h
  obtain ⟨choices', hchoices', hextends⟩ := hmore _ choices hchoices
  exact ⟨choices', hchoices', hextends.nodes_eq ▸ hmem⟩

theorem Records.annotates (h : t.Records branch diagnostic) (hmore : t.Annotates t') :
    t'.Records branch diagnostic := by
  obtain ⟨choices, found, hchoices, hfound, herror⟩ := h
  obtain ⟨choices', hchoices', hextends⟩ := hmore _ choices hchoices
  obtain ⟨found', hfound', hsub⟩ := hextends.errors _ found hfound
  exact ⟨choices', found', hchoices', hfound', hsub _ herror⟩

end PairTree

/-- The walk changes no kind of pair in a way that documents would notice. -/
theorem Pair.Change.choices?_eq {handled : Prop} {a b : Pair} (h : a.Change handled b) :
    b.kind.choices? = a.kind.choices? := by
  cases h with
  | inform f =>
    unfold mapInfo
    split
    · rename_i hkind
      rw [hkind]
      rfl
    · rfl
  | tie definition husage => cases hkind : a.kind <;> simp [hkind, Kind.isAliasUsage] at husage; rfl
  | liken | empty | locate => rfl
  | bind definition _ hkind =>
    rw [hkind]
    rfl

namespace Progress

open PairTree

variable {reports : Option Branch → Code → PairId → Prop} {handles : PairId → Prop} {p p' : Progress}

theorem recordOn_annotates (t : PairTree) (branch : Branch) (diagnostic : Diagnostic) :
    t.Annotates (recordOn t branch diagnostic) := by
  intro doc choices hchoices
  have hchanged := (mapChoices_rechoiced t branch.document
    fun choices => (choices.record? branch.choice branch.alternative diagnostic).getD choices).choices_eq doc
  rw [hchoices] at hchanged
  split at hchanged
  · refine ⟨_, hchanged, ?_⟩
    change choices.Extends ((choices.record? branch.choice branch.alternative diagnostic).getD choices)
    cases hrecord : choices.record? branch.choice branch.alternative diagnostic with
    | none => exact .refl choices
    | some choices' => exact ChoiceTree.extends_record? hrecord
  · exact ⟨choices, hchanged, .refl choices⟩

theorem report_annotates (p : Progress) (branch : Option Branch) (code : Code) (arguments : List String)
    (subject : PairId) (span : Span) : p.tree.Annotates (p.report branch code arguments subject span).tree := by
  cases branch with
  | none => exact .of_same fun _ => rfl
  | some branch => exact recordOn_annotates p.tree branch _

theorem report_records {branch : Branch} (h : p.tree.HasChoice branch) (code : Code) (arguments : List String)
    (subject : PairId) (span : Span) :
    (p.report (some branch) code arguments subject span).tree.Records branch (.of code arguments
      (p.tree.get subject).file (p.tree.get subject).fileIndex span .resolve) := by
  obtain ⟨choices, hchoices, hmem⟩ := h
  generalize hdiagnostic : Diagnostic.of code arguments (p.tree.get subject).file (p.tree.get subject).fileIndex span
    .resolve = diagnostic
  obtain ⟨choices', found, hrecord, hfound, herror⟩ := ChoiceTree.exists_record? hmem branch.alternative diagnostic
  refine ⟨choices', found, ?_, hfound, herror⟩
  have hchanged := (mapChoices_rechoiced p.tree branch.document
    fun choices => (choices.record? branch.choice branch.alternative diagnostic).getD choices).choices_eq
    branch.document
  rw [if_pos rfl, hchoices, Option.map_some, hrecord] at hchanged
  rw [← hdiagnostic] at hchanged
  exact hchanged

theorem Edit.annotates (h : Edit reports handles p p') : p.tree.Annotates p'.tree := by
  cases h with
  | book hset _ => exact .of_same fun x => by rw [tree, tree, hset]
  | report arguments span _ => exact report_annotates p _ _ arguments _ span
  | @change id f h =>
    refine .of_same fun x => ?_
    change ((p.tree.modify id f).kind x).choices? = _
    rw [PairTree.kind, get_modify]
    split
    · rename_i hself
      rw [hself.1]
      exact h.choices?_eq
    · rfl
  | split id hwf =>
    by_cases hnamed : p.tree.NamedScope id
    · have hsplit : p.tree.IsSplit (p.splitScope id).tree id := isSplit_splitScope hwf hnamed
      exact .of_same (hsplit.flag_eq rfl)
    · exact .of_same fun x => congrArg (fun t : PairTree => (t.kind x).choices?) (splitScope_of_not hnamed)

theorem Edits.annotates (h : Edits reports handles p p') : p.tree.Annotates p'.tree := by
  induction h with
  | refl => exact .of_same fun _ => rfl
  | tail _ hedit ih => exact ih.trans hedit.annotates

/-- What pairs need is noted on the branch that they lie on, as `lies` tells. -/
def Recorded (lies : PairId → Branch → Prop) (p : Progress) : Prop :=
  ∀ f ∈ p.findings, f.diagnostic.code.IsAboutNeed → ∀ branch, lies f.subject branch →
    p.tree.Records branch f.diagnostic

section

variable {lies : PairId → Branch → Prop} (hchoice : ∀ x branch, lies x branch → p.tree.HasChoice branch)
  (hreports : ∀ branch? code subject, reports branch? code subject → code.IsAboutNeed →
    ∀ branch, lies subject branch → branch? = some branch)

include hchoice hreports

theorem Edit.recorded (h : Edit reports handles p p') (hold : p.Recorded lies) : p'.Recorded lies := by
  have hkept : ∀ f ∈ p.findings, f.diagnostic.code.IsAboutNeed → ∀ branch, lies f.subject branch →
      p'.tree.Records branch f.diagnostic := fun f hf hcode branch hlies =>
    (hold f hf hcode branch hlies).annotates h.annotates
  cases h with
  | book _ hfindings =>
    intro f hf
    rw [hfindings] at hf
    exact hkept f hf
  | @report branch? code subject arguments span hreport =>
    intro f hf hcode branch hlies
    rw [(report_spec p branch? code arguments subject span).2] at hf
    rcases List.mem_append.mp hf with hf | hf
    · exact hkept f hf hcode branch hlies
    · obtain rfl := List.mem_singleton.mp hf
      obtain rfl := hreports branch? code subject hreport hcode branch hlies
      exact report_records (hchoice subject branch hlies) code arguments subject span
  | change _ => exact hkept
  | split _ _ => exact hkept

theorem Edits.recorded (h : Edits reports handles p p') (hold : p.Recorded lies) : p'.Recorded lies := by
  induction h with
  | refl => exact hold
  | tail hedits hedit ih =>
    exact hedit.recorded (fun x branch hlies => (hchoice x branch hlies).annotates (Edits.annotates hedits)) hreports ih

end

end Progress

end PairMarkup
