import PairMarkup.Proofs.Resolution.Notes

namespace PairMarkup

open List

instance (kind : Kind) (r : Option PairId) : Decidable (kind = .aliasUsage r) :=
  match kind with
  | .aliasUsage r' => decidable_of_iff (r' = r) (by simp)
  | .moduleRoot _ | .document _ _ | .element | .attr | .scope | .aliasDefinition _ | .parameter _ _
  | .argument | .namespaceDefinition | .comment => isFalse nofun

namespace PairTree

def Marked (t : PairTree) (d : PairId) : Prop := ∃ info, t.kind d = .aliasDefinition info ∧ info.isCircular = true

instance (t : PairTree) (d : PairId) : Decidable (t.Marked d) :=
  match h : t.kind d with
  | .aliasDefinition info => decidable_of_iff (info.isCircular = true) (by simp [Marked, h])
  | .moduleRoot _ | .document _ _ | .element | .attr | .scope | .aliasUsage _ | .parameter _ _
  | .argument | .namespaceDefinition | .comment => isFalse (by simp [Marked, h])

/-- A usage in the body of `d`, outside of nested definitions, is tied to `e`. -/
def Refers (t : PairTree) (d e : PairId) : Prop :=
  ∃ u, t.enclosingDefinition? u = some d ∧ t.kind u = .aliasUsage (some e)

variable {t t' : PairTree}

theorem kind_core_eq (h : t'.core = t.core) (x : PairId) : (t'.kind x).core = (t.kind x).core := by
  refine Pair.kind_eq_of_core ?_
  rw [← get_core, h, get_core]

theorem kind_eq_aliasUsage_of_core (h : t'.core = t.core) (x : PairId)
    (r : Option PairId) : t'.kind x = .aliasUsage r ↔ t.kind x = .aliasUsage r := by
  rw [← Kind.core_eq_aliasUsage, kind_core_eq h, Kind.core_eq_aliasUsage]

theorem marked_iff_core {t : PairTree} {x : PairId} :
    t.Marked x ↔ (t.kind x).core = .aliasDefinition { isCircular := true } := by
  unfold Marked
  cases hkind : t.kind x with
  | aliasDefinition info => simp [Kind.core]
  | _ => simp [Kind.core]

theorem marked_of_core (h : t'.core = t.core) (x : PairId) : t'.Marked x ↔ t.Marked x := by
  rw [marked_iff_core, marked_iff_core, kind_core_eq h]

end PairTree

namespace Progress

open PairTree

/-- Nothing was changed in the tree as it is written. -/
structure Alike (p p' : Progress) : Prop where
  shape_eq : p'.tree.shape = p.tree.shape
  modules_eq : p'.set.modules = p.set.modules
  entered_eq : p'.entered = p.entered
  handled_eq : p'.handled = p.handled
  deferred_eq : p'.deferred = p.deferred

variable {p p' p'' : Progress} {d : PairId} {branch : Option Branch} {u : PairId}

theorem Alike.refl (p : Progress) : Alike p p := ⟨rfl, rfl, rfl, rfl, rfl⟩

theorem Alike.trans (h : Alike p p') (h' : Alike p' p'') : Alike p p'' where
  shape_eq := h'.shape_eq.trans h.shape_eq
  modules_eq := h'.modules_eq.trans h.modules_eq
  entered_eq := h'.entered_eq.trans h.entered_eq
  handled_eq := h'.handled_eq.trans h.handled_eq
  deferred_eq := h'.deferred_eq.trans h.deferred_eq

theorem Noted.alike (h : Noted p p') : Alike p p' :=
  ⟨h.shape_eq, h.modules_eq, h.entered_eq, h.handled_eq, h.deferred_eq⟩

section

variable (p branch)

theorem reportName_alike (code : Code) (subject : PairId) : Alike p (p.reportName branch code subject) := by
  have h := (report_spec p branch code [(p.tree.get subject).nameText] subject (p.tree.get subject).nameSpan).1.alike
  exact ⟨h.shape_eq, h.modules_eq, h.entered_eq, h.handled_eq, h.deferred_eq⟩

theorem reportName_core (code : Code) (subject : PairId) :
    (p.reportName branch code subject).tree.core = p.tree.core :=
  (report_spec p branch code [(p.tree.get subject).nameText] subject (p.tree.get subject).nameSpan).1.core_eq

end

theorem tie_alike (hu : (p.tree.kind u).isAliasUsage) (e : PairId) : Alike p (p.tie u e) := by
  refine ⟨shape_modify ?_, rfl, rfl, rfl, rfl⟩
  rw [kind] at hu
  cases hkind : (p.tree.get u).kind with
  | aliasUsage r => simp only [Pair.shape, hkind, Kind.shape]
  | _ => simp [hkind, Kind.isAliasUsage] at hu

theorem kind_tie (hu : u < p.tree.size) (e x : PairId) :
    (p.tie u e).tree.kind x = if x = u then .aliasUsage (some e) else p.tree.kind x := by
  change ((p.tree.modify u _).get x).kind = _
  rw [get_modify]
  by_cases hx : x = u
  · rw [if_pos ⟨hx, hx ▸ hu⟩, if_pos hx]
  · rw [if_neg fun h => hx h.1, if_neg hx, kind]

section

variable (p branch)

theorem reportName_forget (code : Code) (subject : PairId) :
    (p.reportName branch code subject).forget = p.forget.reportName branch code subject := by
  cases branch <;> rfl

theorem tie_forget (u e : PairId) : (p.tie u e).forget = p.forget.tie u e := rfl

theorem foldl_markCircular_forget (ids : List PairId) (p : Progress) :
    (ids.foldl (markCircular branch) p).forget = ids.foldl (markCircular branch) p.forget := by
  induction ids generalizing p with
  | nil => rfl
  | cons d ids ih =>
    refine (ih _).trans (congrArg (List.foldl (markCircular branch) · ids) ?_)
    simp only [markCircular, tree_forget]
    split
    · split
      · rfl
      · exact reportName_forget ..
    · rfl

end

/-- How often a definition was reported as circular. -/
def timesTold (p : Progress) (d : PairId) : Nat :=
  p.findings.countP fun f => f.subject = d ∧ f.diagnostic.code = .aliasDefHasCircularReference

/-- Every definition that is marked as circular was reported once, and no other one
    was. -/
def Truthful (p : Progress) : Prop :=
  ∀ d, (p.tree.Marked d → p.timesTold d = 1) ∧ (¬ p.tree.Marked d → p.timesTold d = 0)

/-- The definitions among the given pairs were marked and reported, unless that was
    done before, and nothing else was changed. -/
structure Marks (p p' : Progress) (ids : List PairId) : Prop extends Alike p p' where
  usage_iff : ∀ x r, p'.tree.kind x = .aliasUsage r ↔ p.tree.kind x = .aliasUsage r
  marked_iff : ∀ x, p'.tree.Marked x ↔ p.tree.Marked x ∨ (x ∈ ids ∧ (p.tree.kind x).isAliasDefinition = true)
  reports : Reported (· = .aliasDefHasCircularReference) p.findings p'.findings
  truthful : p.Truthful → p'.Truthful

theorem Marks.nil (p : Progress) : Marks p p [] := ⟨.refl p, fun _ _ => .rfl, by simp, .refl _, id⟩

theorem Marks.trans {ids ids' : List PairId} (h : Marks p p' ids) (h' : Marks p' p'' ids') :
    Marks p p'' (ids ++ ids') where
  toAlike := h.toAlike.trans h'.toAlike
  usage_iff x r := (h'.usage_iff x r).trans (h.usage_iff x r)
  marked_iff x := by
    rw [h'.marked_iff, h.marked_iff, isAliasDefinition_eq_of_shape h.shape_eq, mem_append, or_assoc, ← or_and_right]
  reports := h.reports.trans h'.reports
  truthful := h'.truthful ∘ h.truthful

theorem markCircular_eq_self
    (h : p.tree.Marked d ∨ (p.tree.kind d).isAliasDefinition = false) : markCircular branch p d = p := by
  unfold markCircular
  split
  · rename_i info hkind
    rcases h with ⟨info', hkind', hmarked⟩ | hdef
    · rw [kind, hkind] at hkind'
      cases hkind'
      rw [if_pos hmarked]
    · rw [kind, hkind] at hdef
      cases hdef
  · rfl

theorem markCircular_new (hdef : (p.tree.kind d).isAliasDefinition) (hnot : ¬ p.tree.Marked d) :
    markCircular branch p d = (p.modify d (Pair.mapInfo ({ · with isCircular := true }))).reportName branch
        .aliasDefHasCircularReference d := by
  unfold markCircular
  rw [kind] at hdef
  cases hkind : (p.tree.get d).kind with
  | aliasDefinition info =>
    have hfalse : ¬ info.isCircular := fun h => hnot ⟨info, hkind, h⟩
    simp only [hfalse]
    rfl
  | _ => simp [hkind, Kind.isAliasDefinition] at hdef

theorem kind_setCircular {info : DefinitionInfo} (hd : p.tree.kind d = .aliasDefinition info)
    (x : PairId) : (p.modify d (Pair.mapInfo ({ · with isCircular := true }))).tree.kind x =
      if x = d then .aliasDefinition { info with isCircular := true } else p.tree.kind x := by
  have hlt : d < p.tree.size := lt_size_of_kind (by simp [hd, Kind.isComment])
  change ((p.tree.modify d _).get x).kind = _
  rw [get_modify]
  by_cases hx : x = d
  · rw [kind] at hd
    rw [if_pos ⟨hx, hx ▸ hlt⟩, if_pos hx, hx, Pair.mapInfo]
    simp only [hd]
  · rw [if_neg fun h => hx h.1, if_neg hx, kind]

theorem setCircular_alike (p : Progress) (d : PairId) :
    Alike p (p.modify d (Pair.mapInfo ({ · with isCircular := true }))) := by
  refine ⟨shape_modify ?_, rfl, rfl, rfl, rfl⟩
  unfold Pair.mapInfo
  split
  · rename_i hkind
    simp only [Pair.shape, hkind, Kind.shape]
  · rfl

section

variable (branch)

theorem markCircular_marks (p : Progress) (d : PairId) : Marks p (markCircular branch p d) [d] := by
  by_cases hold : p.tree.Marked d ∨ (p.tree.kind d).isAliasDefinition = false
  · rw [markCircular_eq_self hold]
    refine ⟨.refl p, fun _ _ => .rfl, fun x => ⟨.inl, ?_⟩, .refl _, id⟩
    rintro (h | ⟨hx, hdef⟩)
    · exact h
    · rw [mem_singleton.mp hx] at hdef ⊢
      exact hold.resolve_right (by simp [hdef])
  · rw [not_or, Bool.not_eq_false] at hold
    obtain ⟨hnot, hdef⟩ := hold
    obtain ⟨info, hinfo⟩ : ∃ info, p.tree.kind d = .aliasDefinition info := by
      cases hkind : p.tree.kind d <;> simp [hkind, Kind.isAliasDefinition] at hdef ⊢
    rw [markCircular_new hdef hnot]
    have hkind := kind_setCircular hinfo
    have halike := setCircular_alike p d
    have hfindings : (p.modify d (Pair.mapInfo ({ · with isCircular := true }))).findings = p.findings := rfl
    generalize p.modify d (Pair.mapInfo ({ · with isCircular := true })) = q at *
    have hcore := reportName_core q branch .aliasDefHasCircularReference d
    have hreport := (report_spec q branch .aliasDefHasCircularReference [(q.tree.get d).nameText] d
      (q.tree.get d).nameSpan).2
    have hmarked : ∀ x, (q.reportName branch .aliasDefHasCircularReference d).tree.Marked x ↔
        p.tree.Marked x ∨ x = d := by
      intro x
      rw [marked_of_core hcore, Marked, hkind]
      by_cases hx : x = d
      · simp [hx]
      · simp [hx, Marked]
    refine ⟨halike.trans (reportName_alike ..), fun x r => ?_, fun x => ?_, ?_, fun htruth x => ?_⟩
    · rw [kind_eq_aliasUsage_of_core hcore, hkind]
      by_cases hx : x = d
      · simp [hx, hinfo]
      · simp [hx]
    · rw [hmarked, mem_singleton]
      exact or_congr_right ⟨fun hx => ⟨hx, hx ▸ hdef⟩, And.left⟩
    · refine ⟨_, hreport.trans (by rw [hfindings]), fun f hf => ?_⟩
      rw [mem_singleton.mp hf]
      rfl
    · have htold : (q.reportName branch .aliasDefHasCircularReference d).timesTold x =
          p.timesTold x + if x = d then 1 else 0 := by
        rw [timesTold, reportName, hreport, countP_append, hfindings, timesTold]
        by_cases hx : x = d
        · simp [hx, Diagnostic.of]
        · simp [hx, Ne.symm hx]
      rw [hmarked, htold]
      by_cases hx : x = d
      · rw [hx]
        simp [(htruth d).2 hnot]
      · simpa [hx] using htruth x

theorem foldl_markCircular_marks (ids : List PairId) (p : Progress) :
    Marks p (ids.foldl (markCircular branch) p) ids := by
  induction ids generalizing p with
  | nil => exact .nil p
  | cons d ids ih => exact (markCircular_marks branch p d).trans (ih _)

end

theorem closeCircle_alike (context : Context) (e : PairId) (p : Progress) : Alike p (closeCircle context e p) :=
  (foldl_markCircular_marks ..).toAlike

end Progress

end PairMarkup
