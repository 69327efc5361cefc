import PairMarkup.Proofs.Resolution.Coverage

namespace PairMarkup

open List

/-- The finding that the name of a usage stands for nothing. -/
def PairTree.notDefinedAt (t : PairTree) (u : PairId) : Finding :=
  ⟨u, .of .aliasIsNotDefined [(t.get u).nameText] (t.get u).file (t.get u).fileIndex (t.get u).nameSpan
    .resolve⟩

theorem PairTree.lt_size_of_usage {t : PairTree} {u : PairId} (h : (t.kind u).isAliasUsage) : u < t.size :=
  lt_size_of_kind fun hcomment => by
    cases hkind : t.kind u <;> simp [hkind, Kind.isAliasUsage, Kind.isComment] at h hcomment

theorem PairTree.notDefinedAt_shape (t : PairTree) (u : PairId) : t.shape.notDefinedAt u = t.notDefinedAt u := by
  rw [notDefinedAt, get_shape]
  rfl

namespace Progress

open PairTree

variable {modules : List PairId} {p p' p'' : Progress}

/-- Every pair of before stands where it stood, and every name means what it meant. -/
structure KeepsPlaces (modules : List PairId) (p p' : Progress) : Prop where
  size_le : p.tree.size ≤ p'.tree.size
  definition_eq : ∀ x, (p'.tree.kind x).isAliasDefinition = (p.tree.kind x).isAliasDefinition
  usage_eq : ∀ x, (p'.tree.kind x).isAliasUsage = (p.tree.kind x).isAliasUsage
  enclosing_eq : ∀ x < p.tree.size, p'.tree.enclosingDefinition? x = p.tree.enclosingDefinition? x
  lexical_eq : ∀ x < p.tree.size, ∀ name, p'.tree.lexical? modules name x = p.tree.lexical? modules name x
  name_eq : ∀ u, (p.tree.kind u).isAliasUsage = true → (p'.tree.get u).nameText = (p.tree.get u).nameText
  notDefinedAt_eq : ∀ u, (p.tree.kind u).isAliasUsage = true → p'.tree.notDefinedAt u = p.tree.notDefinedAt u

namespace KeepsPlaces

theorem of_shape (h : p'.tree.shape = p.tree.shape) : KeepsPlaces modules p p' where
  size_le := (size_eq_of_shape h).symm.le
  definition_eq := isAliasDefinition_eq_of_shape h
  usage_eq := isAliasUsage_eq_of_shape h
  enclosing_eq x _ := enclosingDefinition?_eq_of_shape h x
  lexical_eq x _ name := lexical?_eq_of_shape h name x
  name_eq u _ := nameText_eq_of_shape h u
  notDefinedAt_eq u _ := by rw [← notDefinedAt_shape, h, notDefinedAt_shape]

theorem trans (h : KeepsPlaces modules p p') (h' : KeepsPlaces modules p' p'') : KeepsPlaces modules p p'' where
  size_le := h.size_le.trans h'.size_le
  definition_eq x := (h'.definition_eq x).trans (h.definition_eq x)
  usage_eq x := (h'.usage_eq x).trans (h.usage_eq x)
  enclosing_eq x hx := (h'.enclosing_eq x (hx.trans_le h.size_le)).trans (h.enclosing_eq x hx)
  lexical_eq x hx name := (h'.lexical_eq x (hx.trans_le h.size_le) name).trans (h.lexical_eq x hx name)
  name_eq u hu := (h'.name_eq u ((h.usage_eq u).trans hu)).trans (h.name_eq u hu)
  notDefinedAt_eq u hu := (h'.notDefinedAt_eq u ((h.usage_eq u).trans hu)).trans (h.notDefinedAt_eq u hu)

theorem splitScope (hwf : p.tree.WellFormed) (id : PairId) : KeepsPlaces modules p (p.splitScope id) := by
  by_cases hnamed : p.tree.NamedScope id
  · have hsplit : p.tree.IsSplit (p.splitScope id).tree id := isSplit_splitScope hwf hnamed
    have hid := hnamed.lt_size
    have husage : ∀ u, (p.tree.kind u).isAliasUsage → u ≠ p.tree.size ∧ u ≠ id := by
      intro u hu
      refine ⟨(lt_size_of_usage hu).ne, ?_⟩
      rintro rfl
      have hscope := hnamed.1
      cases hkind : p.tree.kind u <;> simp [hkind, Kind.isAliasUsage, Kind.isScope] at hu hscope
    refine ⟨?_, hsplit.flag_eq (f := Kind.isAliasDefinition) rfl, hsplit.flag_eq (f := Kind.isAliasUsage) rfl,
      fun x hx => hsplit.enclosingDefinition?_eq hwf hid hx.ne,
      fun x hx name => hsplit.lexical?_eq hwf hid hnamed.1 name hx.ne, fun u hu => ?_,
      fun u hu => ?_⟩
    · rw [hsplit.size_eq]
      exact Nat.le_succ _
    · exact hsplit.eq_of_keeps Pair.nameText (husage u hu).1 (fun _ _ => rfl) fun heq => absurd heq (husage u hu).2
    · exact hsplit.eq_of_keeps (fun pair => Finding.mk u (.of .aliasIsNotDefined [pair.nameText] pair.file
        pair.fileIndex pair.nameSpan .resolve)) (husage u hu).1 (fun _ _ => rfl)
        fun heq => absurd heq (husage u hu).2
  · refine .of_shape (congrArg shape ?_)
    exact splitScope_of_not hnamed

end KeepsPlaces

/-- Nothing was tied or marked. -/
structure SameTies (modules : List PairId) (p p' : Progress) : Prop extends KeepsPlaces modules p p' where
  tie_iff : ∀ u r, p'.tree.kind u = .aliasUsage r ↔ p.tree.kind u = .aliasUsage r
  marked_iff : ∀ d, p'.tree.Marked d ↔ p.tree.Marked d

namespace SameTies

theorem of_core (h : p'.tree.core = p.tree.core) : SameTies modules p p' where
  toKeepsPlaces := .of_shape (shape_eq_of_core h)
  tie_iff := kind_eq_aliasUsage_of_core h
  marked_iff := marked_of_core h

theorem trans (h : SameTies modules p p') (h' : SameTies modules p' p'') : SameTies modules p p'' where
  toKeepsPlaces := h.toKeepsPlaces.trans h'.toKeepsPlaces
  tie_iff u r := (h'.tie_iff u r).trans (h.tie_iff u r)
  marked_iff d := (h'.marked_iff d).trans (h.marked_iff d)

theorem splitScope (hwf : p.tree.WellFormed) (id : PairId) : SameTies modules p (p.splitScope id) := by
  by_cases hnamed : p.tree.NamedScope id
  · have hsplit : p.tree.IsSplit (p.splitScope id).tree id := isSplit_splitScope hwf hnamed
    refine ⟨.splitScope hwf id, fun u r => Iff.of_eq ?_, fun d => Iff.of_eq ?_⟩
    · exact hsplit.flag_eq (f := (· = .aliasUsage r)) (by simp) u
    · exact hsplit.flag_eq (f := fun kind => ∃ info, kind = .aliasDefinition info ∧ info.isCircular = true)
        (by simp) d
  · exact .of_core (congrArg core (splitScope_of_not hnamed))

theorem reportName (p : Progress) (branch : Option Branch) (code : Code) (subject : PairId) :
    SameTies modules p (p.reportName branch code subject) :=
  .of_core (reportName_core p branch code subject)

theorem refers_iff (h : SameTies modules p p') {d e : PairId} : p'.tree.Refers d e ↔ p.tree.Refers d e := by
  refine exists_congr fun u => ?_
  rw [h.tie_iff]
  refine and_congr_left fun hkind => ?_
  rw [h.enclosing_eq u (lt_size_of_usage (by rw [hkind]; rfl))]

end SameTies

/-- Nothing was tied, marked or reported about either. -/
structure KeepsTies (modules : List PairId) (p p' : Progress) : Prop extends SameTies modules p p' where
  reports : Reported (¬ ·.IsAboutTies) p.findings p'.findings

theorem Noted.keepsTies (h : Noted p p') : KeepsTies modules p p' := ⟨.of_core h.core_eq, h.reports⟩

namespace KeepsTies

theorem refl (p : Progress) : KeepsTies modules p p := (Noted.refl p).keepsTies

theorem trans (h : KeepsTies modules p p') (h' : KeepsTies modules p' p'') : KeepsTies modules p p'' :=
  ⟨h.toSameTies.trans h'.toSameTies, h.reports.trans h'.reports⟩

theorem of_met {entered handled : List PairId}
    (h : Noted { p with entered := entered, handled := handled } p') : KeepsTies modules p p' :=
  ⟨.of_core h.core_eq, h.reports⟩

theorem splitScope (hwf : p.tree.WellFormed) (id : PairId) : KeepsTies modules p (p.splitScope id) :=
  ⟨.splitScope hwf id, .refl _⟩

theorem timesTold_eq (h : KeepsTies modules p p') (d : PairId) : p'.timesTold d = p.timesTold d := by
  rw [timesTold, timesTold, countP_eq_length_filter, countP_eq_length_filter,
    h.reports.filter_eq fun f hf hcode => hcode (.inr (of_decide_eq_true hf).2)]

theorem truthful (h : KeepsTies modules p p') (htruth : p.Truthful) : p'.Truthful := by
  intro d
  rw [h.marked_iff, h.timesTold_eq]
  exact htruth d

end KeepsTies

/-- The usage `u` was tied to `e`, and the definitions among the given pairs were marked
    as circular. -/
structure Ties (modules : List PairId) (p p' : Progress) (u e : PairId) (circle : List PairId) : Prop
    extends KeepsPlaces modules p p' where
  tie_iff : ∀ x r, p'.tree.kind x = .aliasUsage r ↔ x = u ∧ r = some e ∨ x ≠ u ∧ p.tree.kind x = .aliasUsage r
  marked_iff : ∀ d, p'.tree.Marked d ↔ p.tree.Marked d ∨ d ∈ circle ∧ (p.tree.kind d).isAliasDefinition = true
  reports : Reported (· ≠ .aliasIsNotDefined) p.findings p'.findings
  truthful : p.Truthful → p'.Truthful

namespace Ties

variable {u e : PairId} {circle : List PairId}

theorem tie (hu : (p.tree.kind u).isAliasUsage) (e : PairId) : Ties modules p (p.tie u e) u e [] := by
  have hkind := kind_tie (lt_size_of_usage hu) e
  have hmarked : ∀ d, (p.tie u e).tree.Marked d ↔ p.tree.Marked d := by
    intro d
    rw [Marked, hkind, Marked]
    by_cases hd : d = u
    · subst hd
      cases hkind : p.tree.kind d <;> simp [hkind, Kind.isAliasUsage] at hu ⊢
    · rw [if_neg hd]
  refine ⟨.of_shape (tie_alike hu e).shape_eq, fun x r => ?_, fun d => ?_, .refl _, fun htruth d => ?_⟩
  · rw [hkind]
    by_cases hx : x = u
    · simp [hx, eq_comm]
    · simp [hx]
  · simp [hmarked]
  · rw [hmarked]
    exact htruth d

theorem keeps_trans (h : KeepsTies modules p p') (h' : Ties modules p' p'' u e circle) :
    Ties modules p p'' u e circle where
  toKeepsPlaces := h.toKeepsPlaces.trans h'.toKeepsPlaces
  tie_iff x r := by rw [h'.tie_iff, h.tie_iff]
  marked_iff d := by rw [h'.marked_iff, h.marked_iff, h.definition_eq]
  reports := (h.reports.mono fun _ => mt .inl).trans h'.reports
  truthful := h'.truthful ∘ h.truthful

theorem trans_keeps (h : Ties modules p p' u e circle) (h' : KeepsTies modules p' p'') :
    Ties modules p p'' u e circle where
  toKeepsPlaces := h.toKeepsPlaces.trans h'.toKeepsPlaces
  tie_iff x r := by rw [h'.tie_iff, h.tie_iff]
  marked_iff d := by rw [h'.marked_iff, h.marked_iff]
  reports := h.reports.trans (h'.reports.mono fun _ => mt .inl)
  truthful := h'.truthful ∘ h.truthful

theorem trans_marks (h : Ties modules p p' u e []) (h' : Marks p' p'' circle) : Ties modules p p'' u e circle where
  toKeepsPlaces := h.toKeepsPlaces.trans (.of_shape h'.shape_eq)
  tie_iff x r := by rw [h'.usage_iff, h.tie_iff]
  marked_iff d := by
    rw [h'.marked_iff, h.marked_iff, h.definition_eq]
    simp
  reports := h.reports.trans (h'.reports.mono fun _ hcode => hcode ▸ nofun)
  truthful := h'.truthful ∘ h.truthful

end Ties

/-- What a step may do to ties. Usages are tied when they are handled, to what their
    name means where they stand, and not before or after that. -/
inductive Effect (modules : List PairId) (p p' : Progress) : Prop
  | idle : KeepsTies modules p p' →
      (∀ u, (p.tree.kind u).isAliasUsage = true → (u ∈ p'.handled ↔ u ∈ p.handled)) → Effect modules p p'
  | report {p₁ : Progress} {branch : Option Branch} {u : PairId} :
      (p.tree.kind u).isAliasUsage = true → u ∉ p.handled → p'.handled = u :: p.handled →
      p.tree.lexical? modules (p.tree.get u).nameText u = none → KeepsTies modules p p₁ →
      p' = p₁.reportName branch .aliasIsNotDefined u → Effect modules p p'
  | tie {u e : PairId} {circle : List PairId} :
      (p.tree.kind u).isAliasUsage = true → u ∉ p.handled → p'.handled = u :: p.handled →
      p.tree.lexical? modules (p.tree.get u).nameText u = some e → Ties modules p p' u e circle →
      Effect modules p p'

theorem Effect.keepsPlaces (h : Effect modules p p') : KeepsPlaces modules p p' := by
  cases h with
  | idle hkeeps => exact hkeeps.toKeepsPlaces
  | report _ _ _ _ hkeeps heq =>
    exact heq ▸ (hkeeps.toSameTies.trans (.reportName ..)).toKeepsPlaces
  | tie _ _ _ _ hties => exact hties.toKeepsPlaces

end Progress

namespace Worklist

open Progress

variable {modules : List PairId} {size₀ : Nat} {root : Scope} {passes : PairId → PairId → Prop}
  {l : List Visit} {opens : List PairId} {p p₁ p₂ p' : Progress} {v : Visit} {e : PairId}

theorem keepsTies_handle (hwf : p.tree.WellFormed)
    (hnoted : Noted ({ p with handled := v.id :: p.handled }.splitScope v.id) p') :
    KeepsTies modules p p' := by
  have hmet : KeepsTies modules p { p with handled := v.id :: p.handled } := .of_met (.refl _)
  refine hmet.trans (KeepsTies.trans ?_ hnoted.keepsTies)
  exact .splitScope (p := { p with handled := v.id :: p.handled }) hwf v.id

section

variable (husage : (p.tree.kind v.id).isAliasUsage) (hnoted : Noted { p with handled := v.id :: p.handled } p₁)

include husage hnoted

theorem ties_settled : Ties modules p (p₁.tie v.id e) v.id e [] := by
  have hmet : KeepsTies modules p p₁ := .of_met hnoted
  exact .keeps_trans hmet (.tie ((hmet.usage_eq v.id).trans husage) e)

theorem ties_circular (branch : Option Branch) (circle : List PairId) :
    Ties modules p (circle.foldl (markCircular branch) (p₁.tie v.id e)) v.id e circle :=
  (ties_settled husage hnoted).trans_marks (foldl_markCircular_marks branch circle _)

theorem ties_follow (haround : Noted (p₁.tie v.id e) p₂)
    (hopen : Noted { p₂ with entered := e :: p₂.entered } p') : Ties modules p p' v.id e [] :=
  (ties_settled husage hnoted).trans_keeps (haround.keepsTies.trans (.of_met hopen))

end

theorem Tracked.not_handled (h : Tracked modules size₀ root ⟨v :: l, opens, p⟩)
    (husage : (p.tree.kind v.id).isAliasUsage) : v.id ∉ p.handled := by
  intro hhandled
  refine (nodup_append.mp h.covered.fresh).2.2 v.id ?_ v.id hhandled rfl
  refine mem_filter.mpr ⟨mem_cons_self, ?_⟩
  rw [Kind.isAliasDefinition_of_usage husage]
  rfl

theorem Step.effect {o o' : Worklist} (hstep : Step root passes o o')
    (h : Tracked modules size₀ root o) : Effect modules o.progress o'.progress := by
  cases hstep with
  | note _ hnoted => exact .idle hnoted.keepsTies fun _ _ => by rw [hnoted.handled_eq]
  | close hnoted => exact .idle hnoted.keepsTies fun _ _ => by rw [hnoted.handled_eq]
  | skip => exact .idle (.refl _) fun _ _ => .rfl
  | postpone => exact .idle (.refl _) fun _ _ => .rfl
  | enter _ _ hnoted => exact .idle (.of_met hnoted) fun _ _ => by rw [hnoted.handled_eq]
  | @handle v l p p' _ hplain hnoted =>
    refine .idle (keepsTies_handle h.covered.wellFormed hnoted) fun u husage => ?_
    rw [hnoted.handled_eq]
    refine ⟨fun hmem => (mem_cons.mp hmem).resolve_left ?_, mem_cons_of_mem _⟩
    rintro rfl
    rw [hplain] at husage
    cases husage
  | @unbound v l p p₁ branch husage hfound hnoted =>
    refine .report husage (h.not_handled husage) ?_ ?_ (.of_met hnoted) rfl
    · exact (reportName_alike p₁ branch _ v.id).handled_eq.trans hnoted.handled_eq
    · exact (h.aliases_eq v mem_cons_self _).symm.trans hfound
  | @circular v l p p₁ branch e husage hfound _ hnoted =>
    refine .tie husage (h.not_handled husage) ?_ ?_ (ties_circular husage hnoted branch _)
    · exact (foldl_markCircular_marks ..).handled_eq.trans hnoted.handled_eq
    · exact (h.aliases_eq v mem_cons_self _).symm.trans hfound
  | @settled v l p p₁ e husage hfound _ _ hnoted =>
    refine .tie husage (h.not_handled husage) hnoted.handled_eq ?_ (ties_settled husage hnoted)
    exact (h.aliases_eq v mem_cons_self _).symm.trans hfound
  | @follow v l p p₁ p₂ p' e husage hfound _ _ hnoted haround hopen =>
    refine .tie husage (h.not_handled husage) ?_ ?_ (ties_follow husage hnoted haround hopen)
    · exact (hopen.handled_eq.trans haround.handled_eq).trans hnoted.handled_eq
    · exact (h.aliases_eq v mem_cons_self _).symm.trans hfound

end Worklist

theorem Config.Step.keepsPlaces {set : ModuleSet} (hset : set.Parsed) {m m' : Config} (hstep : Step m m')
    (hm : Leads (start set) m) : Progress.KeepsPlaces set.modules m.progress m'.progress := by
  obtain ⟨horderly, htracked⟩ := leads_tracked hset hm
  have h := ((hstep.worklist_of_tracked hm horderly htracked).effect htracked).keepsPlaces
  exact ⟨h.size_le, h.definition_eq, h.usage_eq, h.enclosing_eq, h.lexical_eq, h.name_eq, h.notDefinedAt_eq⟩

end PairMarkup
