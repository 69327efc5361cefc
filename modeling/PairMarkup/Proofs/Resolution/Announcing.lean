import PairMarkup.Proofs.Resolution.Knowledge
import PairMarkup.Proofs.Tree.Duplicates

namespace PairMarkup

open List

theorem Code.IsAboutArguments.not_isAboutDuplicates {code : Code} (h : code.IsAboutArguments) :
    ¬ code.IsAboutDuplicates := by
  rintro (rfl | rfl)
  · exact absurd h (by decide)
  · exact absurd h (by decide)

namespace PairTree

variable {t t' : PairTree}

section

variable (h : t'.shape = t.shape) (x : PairId)

include h

theorem namespaceDefinitions_eq_of_shape : t'.namespaceDefinitions x = t.namespaceDefinitions x := by
  have hkind := flag_eq_of_shape h Kind.isNamespaceDefinition_shape
  simp only [namespaceDefinitions, hkind]
  rw [← children_shape, h, children_shape]

theorem hoisted_eq_of_shape : t'.hoisted x = t.hoisted x := by
  rw [← hoisted_shape, h, hoisted_shape]

theorem label_eq_of_shape : (t'.get x).label = (t.get x).label := by
  change (t'.get x).shape.label = (t.get x).shape.label
  rw [← get_shape, h, get_shape]

theorem declares_eq_of_shape : t'.declares x = t.declares x := by
  rw [declares, namespaceDefinitions_eq_of_shape h, flag_eq_of_shape h Kind.isScopeOwner_shape, declares]

theorem noticesAt_eq_of_shape : t'.noticesAt x = t.noticesAt x :=
  noticesAt_congr (namespaceDefinitions_eq_of_shape h x) (hoisted_eq_of_shape h x) fun _ d _ => label_eq_of_shape h d

end

end PairTree

namespace Progress

open PairTree

variable {p p' p'' : Progress} {ids ids' : List PairId} (branch : Option Branch)

/-- The findings about names that are defined more than once. -/
def notices (p : Progress) : List Finding := p.findings.filter (·.diagnostic.code.IsAboutDuplicates)

/-- Nothing was announced. -/
structure Hushed (p p' : Progress) : Prop where
  announced_eq : p'.announced = p.announced
  notices_eq : p'.notices = p.notices

namespace Hushed

theorem refl (p : Progress) : Hushed p p := ⟨rfl, rfl⟩

theorem trans (h : Hushed p p') (h' : Hushed p' p'') : Hushed p p'' :=
  ⟨h'.announced_eq.trans h.announced_eq, h'.notices_eq.trans h.notices_eq⟩

end Hushed

section

variable (p)

theorem modify_hushed (id : PairId) (f : Pair → Pair) : Hushed p (p.modify id f) := ⟨rfl, rfl⟩

theorem announced_report (branch : Option Branch) (code : Code) (arguments : List String)
    (subject : PairId) (span : Span) : (p.report branch code arguments subject span).announced = p.announced := by
  cases branch <;> rfl

theorem report_hushed (branch : Option Branch) {code : Code} (hcode : ¬ code.IsAboutDuplicates)
    (arguments : List String) (subject : PairId) (span : Span) :
    Hushed p (p.report branch code arguments subject span) where
  announced_eq := announced_report ..
  notices_eq := by
    rw [notices, (report_spec p branch code arguments subject span).2, filter_append, notices,
      append_right_eq_self, filter_eq_nil_iff]
    intro f hf
    rw [mem_singleton.mp hf]
    exact fun hselected => hcode (of_decide_eq_true hselected)

theorem lenient_hushed : Lenient (¬ ·.IsAboutDuplicates) (fun _ => True) Hushed where
  refl := .refl
  trans := .trans
  report p branch _ _ _ _ hcode := report_hushed p branch hcode _ _ _
  modify p id f _ := modify_hushed p id f

theorem settleValueKind_hushed (id : PairId) : Hushed p (p.settleValueKind id) :=
  lenient_hushed.settleValueKind p id fun _ _ => trivial

theorem noteKind_hushed (branch : Option Branch) (inner : Scope) (id : PairId) :
    Hushed p (p.noteKind branch inner id) :=
  lenient_hushed.noteKind p branch id (by decide) (fun _ => report_hushed p branch (by decide) _ _ _)
    (fun _ => lenient_hushed.bindNamespace p branch id (fun _ _ => trivial) (by decide) inner)
    fun _ => lenient_hushed.bindParameter p branch id (fun _ _ => trivial) (by decide)

end

/-- Those of the pairs `ids` were announced that bring in names and were not announced before. -/
def Announces (ids : List PairId) (p p' : Progress) : Prop :=
  ∃ new : List PairId, new.Nodup ∧ (∀ x, x ∈ new ↔ x ∈ ids ∧ p'.tree.declares x = true ∧ x ∉ p.announced) ∧
    p'.announced = new.reverse ++ p.announced ∧ p'.notices = p.notices ++ new.flatMap p'.tree.noticesAt

namespace Announces

theorem of_hushed (h : Hushed p p') : Announces [] p p' :=
  ⟨[], .nil, by simp, h.announced_eq, by rw [h.notices_eq, flatMap_nil, append_nil]⟩

theorem trans (h : Announces ids p p') (h' : Announces ids' p' p'') (hshape : p''.tree.shape = p'.tree.shape) :
    Announces (ids ++ ids') p p'' := by
  obtain ⟨new, hnodup, hnew, hannounced, hnotices⟩ := h
  obtain ⟨new', hnodup', hnew', hannounced', hnotices'⟩ := h'
  have hdeclares := declares_eq_of_shape hshape
  refine ⟨new ++ new', nodup_append.mpr ⟨hnodup, hnodup', ?_⟩, fun x => ?_, ?_, ?_⟩
  · rintro x hx _ hx' rfl
    refine ((hnew' x).mp hx').2.2 ?_
    rw [hannounced]
    exact mem_append_left _ (mem_reverse.mpr hx)
  · rw [mem_append, hnew', hnew, hannounced, hdeclares, mem_append, mem_append, mem_reverse, hnew]
    tauto
  · rw [hannounced', hannounced, reverse_append, append_assoc]
  · rw [hnotices', hnotices, append_assoc, flatMap_append,
      flatMap_congr fun x _ => (noticesAt_eq_of_shape hshape x).symm]

/-- What is done before nothing is announced leaves no trace in what is announced. -/
theorem of_hushed_left (hhushed : Hushed p p') (h : Announces ids p' p'') : Announces ids p p'' := by
  obtain ⟨new, hnodup, hnew, hannounced, hnotices⟩ := h
  rw [hhushed.announced_eq] at hnew hannounced
  rw [hhushed.notices_eq] at hnotices
  exact ⟨new, hnodup, hnew, hannounced, hnotices⟩

end Announces

theorem findings_reportNames (code : Code) (ids : List PairId) (p : Progress) :
    let p' := ids.foldl (fun p d => p.reportName branch code d) p
    p'.findings = p.findings ++ ids.map (p.tree.noticeOf code) ∧ p'.announced = p.announced ∧
      p'.tree.shape = p.tree.shape := by
  induction ids generalizing p with
  | nil => exact ⟨(append_nil _).symm, rfl, rfl⟩
  | cons d ids ih =>
    obtain ⟨hfindings, hannounced, hshape⟩ := ih (p.reportName branch code d)
    have hone : (p.reportName branch code d).tree.shape = p.tree.shape :=
      shape_eq_of_core (report_spec p branch code _ d _).1.core_eq
    refine ⟨?_, hannounced.trans (announced_report ..), hshape.trans hone⟩
    have hnotice : ∀ e ∈ ids, (p.reportName branch code d).tree.noticeOf code e = p.tree.noticeOf code e :=
      fun e _ => noticeOf_eq_of_label (label_eq_of_shape hone e) code
    rw [foldl_cons, hfindings, map_congr_left hnotice, map_cons, ← singleton_append, ← append_assoc]
    exact congrArg (· ++ _) (report_spec p branch code _ d _).2

theorem announce_announces (p : Progress) (branch : Option Branch) (id : PairId) :
    Announces [id] p (p.announce branch id) := by
  have hshape := (announce_noted p branch id).shape_eq
  by_cases hskip : (!p.tree.declares id || p.announced.contains id) = true
  · have hsame : p.announce branch id = p := by simp only [announce, hskip, if_true]
    rw [hsame]
    refine ⟨[], .nil, fun x => ?_, rfl, (append_nil _).symm⟩
    simp only [not_mem_nil, mem_singleton, false_iff]
    rintro ⟨rfl, hdeclares, hnew⟩
    simp [hdeclares, hnew] at hskip
  · have hnew : p.tree.declares id ∧ id ∉ p.announced := by simpa using hskip
    simp only [announce] at hshape ⊢
    rw [if_neg hskip] at hshape ⊢
    obtain ⟨hfirst, hlist₁, hshape₁⟩ := findings_reportNames branch .duplicateNamespaceDefinition
      (p.tree.repeated (p.tree.namespaceDefinitions id)) p
    generalize (p.tree.repeated (p.tree.namespaceDefinitions id)).foldl
      (fun p d => p.reportName branch .duplicateNamespaceDefinition d) p = p₁ at *
    obtain ⟨hsecond, hlist₂, hshape₂⟩ := findings_reportNames branch .duplicateAliasDefName
      (p.tree.repeated (p.tree.hoisted id)) p₁
    generalize (p.tree.repeated (p.tree.hoisted id)).foldl
      (fun p d => p.reportName branch .duplicateAliasDefName d) p₁ = p₂ at *
    have hnotice : ∀ d ∈ p.tree.repeated (p.tree.hoisted id),
        p₁.tree.noticeOf .duplicateAliasDefName d = p.tree.noticeOf .duplicateAliasDefName d := fun d _ =>
      noticeOf_eq_of_label (label_eq_of_shape hshape₁ d) _
    rw [map_congr_left hnotice, hfirst, append_assoc] at hsecond
    have hfindings : p₂.findings = p.findings ++ p.tree.noticesAt id := hsecond
    refine ⟨[id], nodup_singleton id, fun x => ?_, ?_, ?_⟩
    · rw [declares_eq_of_shape hshape, mem_singleton]
      refine ⟨?_, And.left⟩
      rintro rfl
      exact ⟨rfl, hnew⟩
    · change id :: p₂.announced = id :: p.announced
      rw [hlist₂, hlist₁]
    · rw [flatMap_singleton, noticesAt_eq_of_shape hshape]
      change p₂.findings.filter _ = _
      rw [hfindings, filter_append, notices, append_cancel_left_eq, filter_eq_self]
      intro f hf
      rcases mem_append.mp hf with hf | hf
      · obtain ⟨d, -, rfl⟩ := mem_map.mp hf
        rfl
      · obtain ⟨d, -, rfl⟩ := mem_map.mp hf
        rfl

theorem announceAll_announces (ids : List PairId) (p : Progress) :
    Announces ids p (ids.foldl (announce branch) p) := by
  induction ids generalizing p with
  | nil => exact .of_hushed (.refl p)
  | cons id ids ih =>
    refine (announce_announces p branch id).trans (ih (p.announce branch id)) ?_
    have hall : Noted (p.announce branch id) (ids.foldl (announce branch) (p.announce branch id)) :=
      lenient_noted.foldl (fun p id _ => announce_noted p branch id) _
    exact hall.shape_eq

theorem announceAround_announces (hwf : p.tree.WellFormed) (branch : Option Branch) (definition : PairId) :
    ∃ ids, (∀ x, x ∈ ids ↔ x ∈ p.tree.ancestors definition) ∧ Announces ids p (p.announceAround branch definition) := by
  unfold announceAround
  cases hparent : p.tree.parent? definition with
  | none =>
    refine ⟨[], fun x => ?_, .of_hushed (.refl p)⟩
    rw [ancestors_eq_nil hparent]
  | some parent =>
    refine ⟨p.tree.pathTo parent, fun x => ?_, announceAll_announces branch _ p⟩
    rw [hwf.ancestors_eq_cons hparent, pathTo, mem_append, mem_reverse, mem_singleton, mem_cons, or_comm]

theorem openDefinition_announces (p : Progress) (branch : Option Branch) (id : PairId) :
    Announces [id] p (p.openDefinition branch id) := by
  have hopened : Hushed p { p with entered := id :: p.entered, deferred := some [] } := ⟨rfl, rfl⟩
  exact .of_hushed_left (hopened.trans
    (lenient_hushed.recordSignature _ branch id (by decide) fun _ _ => trivial)) (announce_announces _ branch id)

theorem entered_openDefinition (p : Progress) (branch : Option Branch) (id : PairId) :
    (p.openDefinition branch id).entered = id :: p.entered :=
  (Config.openDefinition_noted p branch id).entered_eq

theorem met_openDefinition_iff {branch : Option Branch} {id x : PairId} :
    (p.openDefinition branch id).Met x ↔ p.Met x ∨ x = id := by
  have hhandled : (p.openDefinition branch id).handled = p.handled :=
    (Config.openDefinition_noted p branch id).handled_eq
  rw [Met, hhandled, entered_openDefinition, mem_cons, or_comm (a := x = id), ← or_assoc, Met]

theorem beginPair_announces (p : Progress) (branch : Option Branch) (id : PairId) :
    Announces [id] p (p.beginPair branch id) := by
  have hbegun : Hushed p ({ p with handled := id :: p.handled }.splitScope id) := ⟨rfl, rfl⟩
  exact .of_hushed_left hbegun (announce_announces _ branch id)

/-- The pairs `ids` were announced as far as they bring in names: all that is met now and was not before, and all
    that is around a definition that was entered, unless that was `visited` itself. -/
structure Proclaims (visited : PairId → Prop) (p p' : Progress) (ids : List PairId) : Prop where
  announces : Announces ids p p'
  met : ∀ x, p'.Met x → p.Met x ∨ x ∈ ids
  source : ∀ x ∈ ids, p'.Met x ∨ ∃ e ∈ p'.entered, x ∈ p'.tree.ancestors e
  around : ∀ e ∈ p'.entered, e ∈ p.entered ∨ visited e ∨ ∀ x ∈ p'.tree.ancestors e, x ∈ ids

variable {visited : PairId → Prop}

theorem Proclaims.of_hushed (h : Hushed p p') (hhandled : p'.handled = p.handled)
    (hentered : p'.entered = p.entered) : Proclaims visited p p' [] where
  announces := .of_hushed h
  met _ hx := .inl (hx.imp (hhandled ▸ ·) (hentered ▸ ·))
  source _ hx := absurd hx not_mem_nil
  around _ he := .inl (hentered ▸ he)

theorem Proclaims.after {id : PairId} (h : Proclaims visited p' p'' ids) (hbegun : Announces [id] p p')
    (hmet : ∀ x, p'.Met x → p.Met x ∨ x = id) (hentered : p'.entered = p.entered)
    (hshape : p''.tree.shape = p'.tree.shape) (hid : p''.Met id) : Proclaims visited p p'' (id :: ids) where
  announces := hbegun.trans h.announces hshape
  met x hx := by
    rcases h.met x hx with hx | hx
    · refine (hmet x hx).imp_right ?_
      rintro rfl
      exact mem_cons_self
    · exact .inr (mem_cons_of_mem _ hx)
  source x hx := by
    rcases mem_cons.mp hx with rfl | hx
    · exact .inl hid
    · exact h.source x hx
  around e he := by
    refine (h.around e he).imp (hentered ▸ ·) (.imp_right fun hall x hx => ?_)
    exact mem_cons_of_mem _ (hall x hx)

theorem Proclaims.of_alike (h : Hushed p p') (halike : Alike p p') : Proclaims visited p p' [] :=
  .of_hushed h halike.handled_eq halike.entered_eq

end Progress

namespace WalkAction

open Progress Config

variable {p : Progress} {id : PairId} {visited : PairId → Prop}

section

variable (n : Nat) (context : Context)

theorem ofEntering_proclaims (hid : visited id) : ∃ ids, Proclaims visited p (ofEntering n context id p).2 ids := by
  unfold ofEntering
  split
  · exact ⟨[], .of_alike (.refl p) (.refl p)⟩
  · dsimp only
    refine ⟨[id], openDefinition_announces p context.branch id, fun x hx => ?_, fun x hx => ?_, fun e he => ?_⟩
    · refine (met_openDefinition_iff.mp hx).imp_right ?_
      rintro rfl
      exact mem_singleton_self _
    · exact .inl (met_openDefinition_iff.mpr (.inr (mem_singleton.mp hx)))
    · rw [entered_openDefinition] at he
      rcases mem_cons.mp he with rfl | he
      · exact .inr (.inl hid)
      · exact .inl he

theorem ofTie_proclaims (hwf : p.tree.WellFormed)
    (husage : (p.tree.kind id).isAliasUsage) : ∃ ids, Proclaims visited p (ofTie n context id p).2 ids := by
  unfold ofTie
  split
  · exact ⟨[], .of_alike (report_hushed p context.branch (by decide) _ _ _) (reportName_alike ..)⟩
  · rename_i e _
    have hushed : Hushed p (p.tie id e) := modify_hushed p id _
    have htie := tie_alike husage e
    dsimp only
    split
    · have hmarks := foldl_markCircular_marks context.branch (context.chain.dropWhile (· ≠ e)) (p.tie id e)
      refine ⟨[], .of_alike (hushed.trans ?_) (htie.trans hmarks.toAlike)⟩
      exact lenient_hushed.foldl (fun p d _ => lenient_hushed.markCircular p context.branch d (by decide) trivial) _
    · split
      · exact ⟨[], .of_alike hushed htie⟩
      · rename_i hentered
        have haround := announceAround_noted (p.tie id e) context.branch e
        obtain ⟨ids, hids, hannounces⟩ := announceAround_announces (hwf.of_shape htie.shape_eq) context.branch e
        generalize hq : (p.tie id e).announceAround context.branch e = q at *
        have halike := htie.trans haround.alike
        have hnew : ¬ q.entered.contains e := by
          rw [haround.entered_eq]
          exact hentered
        simp only [ofEntering, if_neg hnew]
        have hshape : (q.openDefinition (context.around q.tree e).branch e).tree.shape = q.tree.shape :=
          (openDefinition_noted q _ e).shape_eq
        have hopened := entered_openDefinition q (context.around q.tree e).branch e
        have hmet : ∀ x, (q.openDefinition (context.around q.tree e).branch e).Met x ↔ q.Met x ∨ x = e := fun _ =>
          met_openDefinition_iff
        have hannounced := openDefinition_announces q (context.around q.tree e).branch e
        generalize q.openDefinition (context.around q.tree e).branch e = r at *
        have hancestors : ∀ x, x ∈ r.tree.ancestors e ↔ x ∈ ids := by
          intro x
          rw [hids, PairTree.ancestors_eq_of_shape (hshape.trans haround.shape_eq)]
        refine ⟨ids ++ [e], ?_, fun x hx => ?_, fun x hx => ?_, fun d hd => ?_⟩
        · exact (Announces.of_hushed_left hushed hannounces).trans hannounced hshape
        · refine ((hmet x).mp hx).imp halike.met_iff.mp ?_
          rintro rfl
          exact mem_append_right _ (mem_singleton_self _)
        · rcases mem_append.mp hx with hx | hx
          · refine .inr ⟨e, ?_, (hancestors x).mpr hx⟩
            rw [hopened]
            exact mem_cons_self
          · exact .inl ((hmet x).mpr (.inr (mem_singleton.mp hx)))
        · rw [hopened] at hd
          rcases mem_cons.mp hd with rfl | hd
          · exact .inr (.inr fun x hx => mem_append_left _ ((hancestors x).mp hx))
          · exact .inl (halike.entered_eq ▸ hd)

theorem ofVisit_proclaims (hwf : p.tree.WellFormed) (hid : visited id) :
    ∃ ids, Proclaims visited p (ofVisit n context id p).2 ids := by
  cases hdef : (p.tree.kind id).isAliasDefinition with
  | true =>
    simp only [ofVisit, hdef, if_true]
    split
    · exact ⟨[], .of_hushed ⟨rfl, rfl⟩ rfl rfl⟩
    · exact ofEntering_proclaims n _ hid
  | false =>
    have hbegin := beginPair_noted p context.branch id
    have hbegun := beginPair_announces p context.branch id
    have hmet : ∀ x, (p.beginPair context.branch id).Met x → p.Met x ∨ x = id := by
      intro x hx
      rcases hbegin.alike.met_iff.mp hx with hx | hx
      · rcases mem_cons.mp hx with rfl | hx
        · exact .inr rfl
        · exact .inl (.inl hx)
      · exact .inl (.inr hx)
    have hself : (ofVisit n context id p).2.Met id := by
      refine .inl ?_
      rw [ofVisit_handled n context hdef]
      exact mem_cons_self
    cases husage : (p.tree.kind id).isAliasUsage with
    | true =>
      rw [ofVisit_usage n context husage] at hself ⊢
      have hwf' : (p.beginPair context.branch id).tree.WellFormed := by
        rw [splitScope_of_usage husage] at hbegin
        exact hwf.of_shape hbegin.shape_eq
      have hkind := (flag_beginPair hwf context.branch id Kind.isAliasUsage_shape).trans husage
      obtain ⟨ids, htie⟩ := ofTie_proclaims n context hwf' hkind
      exact ⟨id :: ids, htie.after hbegun hmet hbegin.entered_eq (ofTie_shape n context hkind) hself⟩
    | false =>
      rw [ofVisit_plain n context hwf hdef husage] at hself ⊢
      have hnote := noteKind_noted (p.beginPair context.branch id) context.branch
        ((p.beginPair context.branch id).tree.enter id context.scope) id
      have hnoted : Proclaims visited _ _ [] := .of_alike (noteKind_hushed ..) hnote.alike
      exact ⟨[id], hnoted.after hbegun hmet hbegin.entered_eq hnote.shape_eq hself⟩

end

/-- A step of the walk announces what is met in it and what is around a definition that a usage leads to. -/
theorem perform_proclaims (action : WalkAction) (hwf : p.tree.WellFormed) :
    ∃ ids, Proclaims (fun e => ∃ n context, action = .visit (n + 1) context e) p (action.perform p).2 ids := by
  cases action with
  | visit n context id =>
    cases n with
    | zero => exact ⟨[], .of_alike (.refl p) (.refl p)⟩
    | succ n => exact ofVisit_proclaims n context hwf ⟨n, context, rfl⟩
  | held n context id => exact ⟨[], .of_alike (.refl p) (.refl p)⟩
  | settle id => exact ⟨[], .of_alike (settleValueKind_hushed p id) (settleValueKind_noted p id).alike⟩
  | check branch u e =>
    have hushed := lenient_hushed.checkArguments p branch (fun _ => Code.IsAboutArguments.not_isAboutDuplicates) u e
    exact ⟨[], .of_alike hushed (checkArguments_noted p branch u e).alike⟩
  | nested n context => exact ⟨[], .of_hushed ⟨rfl, rfl⟩ rfl rfl⟩
  | leave id outer =>
    have hsettled := settleValueKind_hushed p id
    have hnoted := settleValueKind_noted p id
    exact ⟨[], .of_hushed ⟨hsettled.announced_eq, hsettled.notices_eq⟩ hnoted.handled_eq hnoted.entered_eq⟩

end WalkAction

end PairMarkup
