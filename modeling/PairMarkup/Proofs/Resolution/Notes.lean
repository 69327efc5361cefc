import PairMarkup.Proofs.Tree.Shape
import PairMarkup.Resolution.Walk

namespace PairMarkup

open List

/-- The codes of the findings about what aliases are tied to. -/
def Code.IsAboutTies (code : Code) : Prop := code = .aliasIsNotDefined ∨ code = .aliasDefHasCircularReference

instance (code : Code) : Decidable code.IsAboutTies := inferInstanceAs (Decidable (_ ∨ _))

/-- The codes of the findings about what a usage is given. -/
def Code.IsAboutArguments (code : Code) : Prop :=
  code ∈ [duplicateArgumentName, argumentIsUnexpected, valueArgumentIsExpected, blockArgumentIsExpected,
    argumentIsMissing, defaultValueArgumentIsMissing, defaultValueArgumentIsUnexpected,
    defaultBlockArgumentIsMissing, defaultBlockArgumentIsUnexpected]

instance (code : Code) : Decidable code.IsAboutArguments := inferInstanceAs (Decidable (_ ∈ _))

theorem Code.IsAboutArguments.not_isAboutTies {code : Code} (h : code.IsAboutArguments) : ¬ code.IsAboutTies := by
  rintro (rfl | rfl)
  · exact absurd h (by decide)
  · exact absurd h (by decide)

/-- Findings were added, with codes of one kind. -/
def Reported (P : Code → Prop) (before after : List Finding) : Prop :=
  ∃ new, after = before ++ new ∧ ∀ f ∈ new, P f.diagnostic.code

namespace Reported

variable {P Q : Code → Prop} {before after later : List Finding}

theorem refl (before : List Finding) : Reported P before before := ⟨[], (append_nil _).symm, nofun⟩

variable (h : Reported P before after)

include h

theorem trans (h' : Reported P after later) : Reported P before later := by
  obtain ⟨new, rfl, hnew⟩ := h
  obtain ⟨new', rfl, hnew'⟩ := h'
  refine ⟨new ++ new', append_assoc .., fun f hf => ?_⟩
  exact (mem_append.mp hf).elim (hnew f) (hnew' f)

theorem mono (hcode : ∀ code, P code → Q code) : Reported Q before after := by
  obtain ⟨new, heq, hnew⟩ := h
  exact ⟨new, heq, fun f hf => hcode _ (hnew f hf)⟩

theorem filter_eq {select : Finding → Bool} (hselect : ∀ f, select f → ¬ P f.diagnostic.code) :
    after.filter select = before.filter select := by
  obtain ⟨new, rfl, hnew⟩ := h
  rw [filter_append, append_right_eq_self, filter_eq_nil_iff]
  exact fun f hf hselected => hselect f hselected (hnew f hf)

end Reported

namespace Progress

open PairTree

/-- The same without what was left for later. -/
def forget (p : Progress) : Progress := { p with deferred := none }

@[simp] theorem tree_forget (p : Progress) : p.forget.tree = p.tree := rfl

/-- Nothing was done but to take notes: on pairs, beside their core, and of findings
    that are not about what aliases are tied to. -/
structure Noted (p p' : Progress) : Prop where
  core_eq : p'.tree.core = p.tree.core
  modules_eq : p'.set.modules = p.set.modules
  entered_eq : p'.entered = p.entered
  handled_eq : p'.handled = p.handled
  deferred_eq : p'.deferred = p.deferred
  reports : Reported (¬ ·.IsAboutTies) p.findings p'.findings

variable {p p' p'' : Progress} {branch : Option Branch} {inner : Scope} {code : Code} {id : PairId}

namespace Noted

theorem refl (p : Progress) : Noted p p := ⟨rfl, rfl, rfl, rfl, rfl, .refl _⟩

theorem trans (h : Noted p p') (h' : Noted p' p'') : Noted p p'' where
  core_eq := h'.core_eq.trans h.core_eq
  modules_eq := h'.modules_eq.trans h.modules_eq
  entered_eq := h'.entered_eq.trans h.entered_eq
  handled_eq := h'.handled_eq.trans h.handled_eq
  deferred_eq := h'.deferred_eq.trans h.deferred_eq
  reports := h.reports.trans h'.reports

theorem forget (h : Noted p p') : Noted p.forget p'.forget :=
  ⟨h.core_eq, h.modules_eq, h.entered_eq, h.handled_eq, rfl, h.reports⟩

theorem shape_eq (h : Noted p p') : p'.tree.shape = p.tree.shape := shape_eq_of_core h.core_eq

end Noted

section

variable (p id)

theorem modify_noted {f : Pair → Pair} (hf : ∀ pair, (f pair).core = pair.core) : Noted p (p.modify id f) :=
  ⟨core_modify (hf _), rfl, rfl, rfl, rfl, .refl _⟩

/-- A report notes a finding, and nothing beside that on the core of any pair. -/
theorem report_spec (branch : Option Branch) (code : Code) (arguments : List String)
    (subject : PairId) (span : Span) :
    Noted p { p.report branch code arguments subject span with findings := p.findings } ∧
      (p.report branch code arguments subject span).findings = p.findings ++ [⟨subject, .of code arguments
        (p.tree.get subject).file (p.tree.get subject).fileIndex span .resolve⟩] := by
  cases branch with
  | none => exact ⟨.refl p, rfl⟩
  | some branch =>
    refine ⟨?_, rfl⟩
    exact modify_noted p branch.document (Pair.mapChoices_core _)

theorem report_noted (branch : Option Branch) (hcode : ¬ code.IsAboutTies)
    (arguments : List String) (subject : PairId) (span : Span) :
    Noted p (p.report branch code arguments subject span) := by
  obtain ⟨hnoted, hfindings⟩ := report_spec p branch code arguments subject span
  refine ⟨hnoted.core_eq, hnoted.modules_eq, hnoted.entered_eq, hnoted.handled_eq, hnoted.deferred_eq,
    _, hfindings, fun f hf => ?_⟩
  rw [mem_singleton.mp hf]
  exact hcode

end

theorem isAboutArguments_of_mem {arguments : List String} {subject : PairId} {span : Span}
    {c : Complaint} (hcode : code.IsAboutArguments) (hc : c ∈ [Complaint.mk code arguments subject span]) :
    c.code.IsAboutArguments := by
  rw [mem_singleton.mp hc]
  exact hcode

theorem argumentsComplaints_codes (t : PairTree) (signature : Signature) (usage : String)
    (given : List String) (ids : List PairId) :
    ∀ c ∈ t.argumentsComplaints signature usage given ids, c.code.IsAboutArguments := by
  induction ids generalizing given with
  | nil => exact nofun
  | cons id ids ih =>
    intro c hc
    rcases mem_append.mp hc with hc | hc
    · simp only [argumentComplaints] at hc
      split at hc
      · cases hc
      · split at hc
        · exact isAboutArguments_of_mem (by decide) hc
        · split at hc
          · exact isAboutArguments_of_mem (by decide) hc
          · split at hc
            · exact isAboutArguments_of_mem (by decide) hc
            · split at hc
              · exact isAboutArguments_of_mem (by decide) hc
              · cases hc
    · exact ih _ c hc

theorem usageComplaints_codes (t : PairTree) (usage definition : PairId) :
    ∀ c ∈ t.usageComplaints usage definition, c.code.IsAboutArguments := by
  have hdefault : ∀ span name expected supplied missing unexpected,
      Code.IsAboutArguments missing → Code.IsAboutArguments unexpected →
      ∀ c ∈ usageComplaints.defaultComplaints usage span name expected supplied missing unexpected,
        c.code.IsAboutArguments := by
    intro span name expected supplied missing unexpected hmissing hunexpected c hc
    unfold usageComplaints.defaultComplaints at hc
    split at hc
    · exact isAboutArguments_of_mem hmissing hc
    · exact isAboutArguments_of_mem hunexpected hc
    · cases hc
  intro c hc
  simp only [usageComplaints, mem_append, mem_filterMap] at hc
  rcases hc with ((hc | ⟨⟨parameter, info⟩, -, hc⟩) | hc) | hc
  · exact argumentsComplaints_codes _ _ _ _ _ c hc
  · split at hc
    · cases hc
      exact (by decide : Code.IsAboutArguments .argumentIsMissing)
    · cases hc
  · exact hdefault _ _ _ _ _ _ (by decide) (by decide) c hc
  · exact hdefault _ _ _ _ _ _ (by decide) (by decide) c hc

/-- A relation that outlasts reports with codes that are `allowed`, and changes of pairs that are `minor`. -/
structure Lenient (allowed : Code → Prop) (minor : (Pair → Pair) → Prop) (R : Progress → Progress → Prop) : Prop where
  refl : ∀ p, R p p
  trans : ∀ {p p' p''}, R p p' → R p' p'' → R p p''
  report : ∀ (p : Progress) branch {code} arguments subject span, allowed code →
    R p (p.report branch code arguments subject span)
  modify : ∀ (p : Progress) id {f}, minor f → R p (p.modify id f)

namespace Lenient

variable {allowed : Code → Prop} {minor : (Pair → Pair) → Prop} {R : Progress → Progress → Prop}
  (h : Lenient allowed minor R) (p : Progress) (branch : Option Branch) (id : PairId)

include h

theorem foldl {α : Type} {f : Progress → α → Progress} {as : List α} (hf : ∀ p, ∀ a ∈ as, R p (f p a)) (p : Progress) :
    R p (as.foldl f p) := by
  induction as generalizing p with
  | nil => exact h.refl p
  | cons a as ih =>
    exact h.trans (hf p a mem_cons_self) (ih (fun p a ha => hf p a (mem_cons_of_mem _ ha)) _)

section

variable (hlist : ∀ (p : Progress) announced, R p { p with announced })
  (hnamespace : allowed .duplicateNamespaceDefinition) (halias : allowed .duplicateAliasDefName)

include hlist hnamespace halias

theorem announce : R p (p.announce branch id) := by
  have hnames : ∀ code, allowed code → ∀ (ids : List PairId) (p : Progress),
      R p (ids.foldl (fun p d => p.reportName branch code d) p) := fun code hcode ids p =>
    h.foldl (fun p d _ => h.report p branch _ _ _ hcode) p
  simp only [Progress.announce]
  split
  · exact h.refl p
  · exact h.trans (hnames _ hnamespace _ p) (h.trans (hnames _ halias _ _) (hlist _ _))

theorem announceAround : R p (p.announceAround branch id) := by
  unfold Progress.announceAround
  split
  · exact h.refl p
  · exact h.foldl (fun p id _ => h.announce p branch id hlist hnamespace halias) p

end

theorem recordSignature (hcode : allowed .defaultParameterMustBeOnly)
    (hminor : ∀ f, (∀ info, (f info).isCircular = info.isCircular) → minor (Pair.mapInfo f)) :
    R p (p.recordSignature branch id) := by
  have hinform : ∀ parameters block value, R p (p.modify id (Pair.mapInfo fun info =>
      { info with parameters, hasDefaultBlock := block, hasDefaultValue := value })) :=
    fun _ _ _ => h.modify p id (hminor _ fun _ => rfl)
  simp only [Progress.recordSignature]
  split
  · exact h.trans (hinform ..) (h.report _ branch _ _ _ hcode)
  · exact hinform ..

theorem markCircular (hcode : allowed .aliasDefHasCircularReference)
    (hminor : minor (Pair.mapInfo ({ · with isCircular := true }))) : R p (markCircular branch p id) := by
  unfold Progress.markCircular
  split
  · split
    · exact h.refl p
    · exact h.trans (h.modify p id hminor) (h.report _ branch _ _ _ hcode)
  · exact h.refl p

section

variable (hminor : ∀ f : Pair → Pair, (∀ pair, (f pair).core = pair.core) → minor f)

include hminor

theorem settleValueKind : R p (p.settleValueKind id) := by
  simp only [Progress.settleValueKind]
  split
  · split
    · exact h.modify p id (hminor _ fun _ => rfl)
    · exact h.refl p
  · split
    · exact h.modify p id (hminor _ fun _ => rfl)
    · exact h.refl p

theorem bindNamespace (hcode : allowed .namespacePrefixNotDefined) (scope : Scope) :
    R p (p.bindNamespace branch scope id) := by
  simp only [Progress.bindNamespace]
  split
  · split
    · exact h.modify p id (hminor _ fun _ => rfl)
    · exact h.report p branch _ _ _ hcode
  · exact h.modify p id (hminor _ fun _ => rfl)

theorem bindParameter (hcode : allowed .parameterMustBeDefinedInAliasDefinition) : R p (p.bindParameter branch id) := by
  simp only [Progress.bindParameter]
  split
  · exact h.report p branch _ _ _ hcode
  · refine h.modify p id (hminor _ fun pair => ?_)
    split
    · rename_i hkind
      simp only [Pair.core, hkind, Kind.core]
    · rfl

end

/-- What the kind of a pair asks for, if that is not to find its namespace or its definition, is a check. -/
theorem noteKind {inner : Scope} (hroots : allowed .documentMustHaveOneRootElement)
    (hplace : (p.tree.kind id).isArgument → R p (p.reportName branch .argumentMustBeDefinedInAlias id))
    (hnamespace : (p.tree.kind id).hasNamespace → R p (p.bindNamespace branch inner id))
    (hparameter : (p.tree.kind id).isParameter → R p (p.bindParameter branch id)) :
    R p (p.noteKind branch inner id) := by
  unfold Progress.noteKind
  split
  case h_1 hkind | h_2 hkind | h_3 hkind => exact hnamespace (by rw [hkind]; rfl)
  case h_4 hkind => exact hparameter (by rw [hkind]; rfl)
  case h_5 hkind =>
    unfold checkArgumentPlace
    split
    · exact h.refl p
    · exact hplace (by rw [hkind]; rfl)
  case h_6 =>
    simp only [checkRoots]
    split
    · exact h.report p branch _ _ _ hroots
    · exact h.refl p
  all_goals exact h.refl p

theorem checkArguments (hcodes : ∀ code : Code, code.IsAboutArguments → allowed code) (usage definition : PairId) :
    R p (p.checkArguments branch usage definition) :=
  h.foldl (fun p c hc => h.report p branch _ _ _ (hcodes _ (usageComplaints_codes _ usage definition c hc))) p

end Lenient

theorem lenient_noted : Lenient (¬ ·.IsAboutTies) (fun f => ∀ pair, (f pair).core = pair.core) Noted where
  refl := .refl
  trans := .trans
  report p branch _ _ _ _ hcode := report_noted p branch hcode _ _ _
  modify p id _ hf := modify_noted p id hf

section

variable (p branch id)

theorem announce_noted : Noted p (p.announce branch id) :=
  lenient_noted.announce p branch id (fun _ _ => ⟨rfl, rfl, rfl, rfl, rfl, .refl _⟩) (by decide) (by decide)

theorem announceAround_noted : Noted p (p.announceAround branch id) :=
  lenient_noted.announceAround p branch id (fun _ _ => ⟨rfl, rfl, rfl, rfl, rfl, .refl _⟩) (by decide) (by decide)

theorem settleValueKind_noted : Noted p (p.settleValueKind id) := lenient_noted.settleValueKind p id fun _ hf => hf

end

theorem noteKind_of_hasNamespace (hkind : (p.tree.kind id).hasNamespace) :
    p.noteKind branch inner id = p.bindNamespace branch inner id := by
  cases hk : p.tree.kind id <;> simp_all [noteKind, Kind.hasNamespace]

theorem noteKind_of_parameter (hkind : (p.tree.kind id).isParameter) :
    p.noteKind branch inner id = p.bindParameter branch id := by
  cases hk : p.tree.kind id <;> simp_all [noteKind, Kind.isParameter]

section

variable (p branch inner id)

theorem noteKind_noted : Noted p (p.noteKind branch inner id) :=
  lenient_noted.noteKind p branch id (by decide) (fun _ => report_noted p branch (by decide) _ _ _)
    (fun _ => lenient_noted.bindNamespace p branch id (fun _ hf => hf) (by decide) inner)
    fun _ => lenient_noted.bindParameter p branch id (fun _ hf => hf) (by decide)

theorem checkArguments_noted (usage definition : PairId) : Noted p (p.checkArguments branch usage definition) :=
  lenient_noted.checkArguments p branch (fun _ => Code.IsAboutArguments.not_isAboutTies) usage definition

end

end Progress

end PairMarkup
