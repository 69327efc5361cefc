import PairMarkup.Proofs.Resolution.Announcing
import PairMarkup.Proofs.Resolution.Written

namespace PairMarkup

open List Kind

namespace PairTree

variable {t₀ t t' : PairTree} {scopes : List PairId} {x s : PairId}

theorem lt_size_of_declares (h : t.declares x) : x < t.size := by
  by_contra hnot
  have hdefault := get_eq_default (Nat.le_of_not_lt hnot)
  rw [declares, namespaceDefinitions, children, kind, hdefault] at h
  cases h

/-- A split takes names from the scope and from no other pair. -/
theorem IsSplit.declares_of (h : t.IsSplit t' s) (hwf : t.WellFormed) (hx : x ≠ t.size)
    (hdeclares : t'.declares x) : t.declares x := by
  rw [declares_iff] at hdeclares ⊢
  refine hdeclares.imp (fun howner => ?_) fun hdefined => ?_
  · rwa [h.flag_eq (f := isScopeOwner) rfl] at howner
  · by_cases hxs : x = s
    · subst hxs
      rw [namespaceDefinitions, h.children_scope, filter_cons_of_neg (by rw [h.kind_element]; decide)] at hdefined
      exact absurd rfl hdefined
    · have hsame : t'.namespaceDefinitions x = t.namespaceDefinitions x := by
        rw [namespaceDefinitions, h.children_eq hx hxs, namespaceDefinitions]
        refine filter_congr fun c hc => ?_
        rw [h.kind_eq (ne_of_lt (hwf.child_lt_ne hc).1)]
      rwa [hsame] at hdefined

theorem WellFormed.declaration_plain (hwf : t.WellFormed) {code : Code} {d : PairId}
    (hd : d ∈ t.declarations code x) : d < t.size ∧ (t.kind d).isScope = false := by
  unfold declarations at hd
  split at hd
  · obtain ⟨hchild, hkind⟩ := mem_filter.mp hd
    refine ⟨(hwf.child_lt_ne hchild).1, ?_⟩
    cases hk : t.kind d <;> simp [hk, isNamespaceDefinition, isScope] at hkind ⊢
  · have hkind := (hwf.mem_hoisted_iff.mp hd).kind
    exact ⟨lt_size_of_definition hkind, not_scope_of_definition hkind⟩
  · cases hd

namespace SplitsInto

variable (h : t₀.SplitsInto scopes t)

include h

theorem namespaceDefinitions_eq (hwf₀ : t₀.WellFormed) (hx : x < t₀.size) (hmem : x ∉ scopes) :
    t.namespaceDefinitions x = t₀.namespaceDefinitions x := by
  have hchildren : t.children x = t₀.children x :=
    (Pair.children_eq_of_written (h.written_of_not_mem hx hmem)).trans rfl
  rw [namespaceDefinitions, hchildren, namespaceDefinitions]
  exact filter_congr fun c hc => h.flag_eq isNamespaceDefinition_shape (hwf₀.child_lt_ne hc).1

theorem declares_eq (hwf₀ : t₀.WellFormed) (hx : x < t₀.size) (hmem : x ∉ scopes) : t.declares x = t₀.declares x := by
  rw [declares, h.namespaceDefinitions_eq hwf₀ hx hmem, h.flag_eq isScopeOwner_shape hx, declares]

theorem kind_element (hs : s ∈ scopes) : t.kind (t₀.elementOf scopes s) = .element := by
  have hkind : (t.kind (t₀.elementOf scopes s)).written = .element := (congrArg Pair.kind (h.element s hs)).trans rfl
  cases hk : t.kind (t₀.elementOf scopes s) <;> rw [hk] at hkind <;> cases hkind

theorem namespaceDefinitions_element (hwf₀ : t₀.WellFormed) (hs : s ∈ scopes) :
    t.namespaceDefinitions (t₀.elementOf scopes s) = t₀.namespaceDefinitions s := by
  rw [namespaceDefinitions, h.children_element hs, namespaceDefinitions]
  exact filter_congr fun c hc => h.flag_eq isNamespaceDefinition_shape (hwf₀.child_lt_ne hc).1

theorem namespaceDefinitions_scope (hs : s ∈ scopes) : t.namespaceDefinitions s = [] := by
  rw [namespaceDefinitions, h.children_scope hs, filter_cons_of_neg (by rw [h.kind_element hs]; decide), filter_nil]

theorem label_eq (hx : x < t₀.size) (hmem : x ∉ scopes) : (t.get x).label = (t₀.get x).label :=
  (congrArg Pair.label (h.written_of_not_mem hx hmem) :)

/-- What a pair brings in now was brought in at first by the pair that it stems from. -/
theorem noticesAt_eq (hwf₀ : t₀.WellFormed) (hwf : t.WellFormed) (hhoisted : ∀ x, t.hoisted x = t₀.hoisted x)
    (hdeclares : t.declares x) :
    ∃ y, t.origin? t₀.size x = some y ∧ t.noticesAt x = t₀.noticesAt y := by
  have hlabel : ∀ code y, ∀ d ∈ t₀.declarations code y, (t.get d).label = (t₀.get d).label := by
    intro code y d hd
    obtain ⟨hlt, hplain⟩ := hwf₀.declaration_plain hd
    exact h.label_eq hlt fun hmem => Bool.false_ne_true (hplain.symm.trans (h.named d hmem).1)
  rcases lt_or_ge x t₀.size with hx | hx
  · have hmem : x ∉ scopes := by
      intro hmem
      have hscope : (t.kind x).isScope := (h.flag_eq isScope_shape hx).trans (h.named x hmem).1
      rcases declares_iff.mp hdeclares with howner | hdefined
      · cases hkind : t.kind x <;> simp [hkind, isScope, isScopeOwner] at hscope howner
      · exact hdefined (h.namespaceDefinitions_scope hmem)
    exact ⟨x, origin?_of_lt t hx, noticesAt_congr (h.namespaceDefinitions_eq hwf₀ hx hmem) (hhoisted x) fun code =>
      hlabel code x⟩
  · obtain ⟨s, hs, rfl⟩ := h.exists_elementOf hx (lt_size_of_declares hdeclares)
    have hparent : t.parent? (t₀.elementOf scopes s) = some s := (congrArg Pair.parent (h.element s hs) :)
    refine ⟨s, (hwf.origin?_of_parent hx hparent).trans (origin?_of_lt t (h.named s hs).lt_size), ?_⟩
    have hnone : t.hoisted (t₀.elementOf scopes s) = t₀.hoisted s := by
      rw [hoisted, h.kind_element hs, hoisted]
      have hscope := (h.named s hs).1
      cases hkind : t₀.kind s <;> simp [hkind, isScope, isScopeOwner] at hscope ⊢
    exact noticesAt_congr (h.namespaceDefinitions_element hwf₀ hs) hnone fun code => hlabel code s

end SplitsInto

end PairTree

namespace Config

open Progress PairTree

variable {set : ModuleSet} {m m' : Config} {x : PairId}

theorem leads_hoisted_eq (hset : set.Parsed) (hm : Leads (start set) m) (x : PairId) :
    m.progress.tree.hoisted x = set.tree.hoisted x := by
  refine induction_on (P := fun m => m.progress.tree.hoisted x = set.tree.hoisted x)
    (hoisted_eq_of_shape (start_noted set).shape_eq x) (fun m m' hm hP hstep => ?_) hm
  cases hstep.advances hset hm with
  | same hshape => exact (hoisted_eq_of_shape hshape x).trans hP
  | split hnamed _ _ hshape =>
    have hwf := wellFormed_of_leads hset hm
    have hsplit := isSplit_splitScope hwf hnamed
    exact (hoisted_eq_of_shape hshape x).trans ((hsplit.hoisted_eq hwf hnamed.lt_size hnamed.1 x).trans hP)

theorem leads_noticesAt (hset : set.Parsed) (hm : Leads (start set) m) (hdeclares : m.progress.tree.declares x) :
    ∃ y, m.progress.tree.origin? set.tree.size x = some y ∧ m.progress.tree.noticesAt x = set.tree.noticesAt y := by
  obtain ⟨scopes, hscopes⟩ := leads_splitsInto hset hm
  exact hscopes.noticesAt_eq hset.tree_parsed.wellFormed (wellFormed_of_leads hset hm)
    (leads_hoisted_eq hset hm) hdeclares

/-- What a step leaves as it is for pairs that were there before. -/
structure Lasting (p p' : Progress) : Prop where
  size_le : p.tree.size ≤ p'.tree.size
  met : ∀ x, p.Met x → p'.Met x
  declares : ∀ x, x < p.tree.size → p'.tree.declares x = true → p.tree.declares x = true
  ancestors : ∀ y, y < p.tree.size → ∀ x, x < p.tree.size → (x ∈ p'.tree.ancestors y ↔ x ∈ p.tree.ancestors y)

theorem Step.lasting (hset : set.Parsed) (hstep : Step m m') (hm : Leads (start set) m) :
    Lasting m.progress m'.progress := by
  cases hstep.advances hset hm with
  | same hshape hmet =>
    refine ⟨(size_eq_of_shape hshape).symm.le, hmet, fun x _ hdeclares => ?_, fun y _ x _ => ?_⟩
    · rwa [declares_eq_of_shape hshape] at hdeclares
    · rw [ancestors_eq_of_shape hshape]
  | @split s hnamed _ _ hshape hmet =>
    have hwf := wellFormed_of_leads hset hm
    have hsplit := isSplit_splitScope hwf hnamed
    refine ⟨?_, hmet, fun x hx hdeclares => ?_, fun y hy x hx => ?_⟩
    · rw [size_eq_of_shape hshape, hsplit.size_eq]
      exact Nat.le_succ _
    · rw [declares_eq_of_shape hshape] at hdeclares
      exact hsplit.declares_of hwf hx.ne hdeclares
    · rw [ancestors_eq_of_shape hshape, ← hsplit.ancestors_eq hwf hnamed.lt_size hy.ne, mem_filter]
      have hne : x ≠ m.progress.tree.size := hx.ne
      simp [hne]

theorem leads_entered_definition (hset : set.Parsed) (hm : Leads (start set) m) (hx : x ∈ m.progress.entered) :
    (set.tree.kind x).isAliasDefinition :=
  (leads_flag hset isAliasDefinition_shape rfl hm x).symm.trans
    ((leads_tracked hset hm).2.covered.entered_definition x hx)

theorem leads_handled_plain (hset : set.Parsed) (hm : Leads (start set) m) (hx : x ∈ m.progress.handled) :
    (set.tree.kind x).isAliasDefinition = false :=
  (leads_flag hset isAliasDefinition_shape rfl hm x).symm.trans ((leads_tracked hset hm).2.covered.handled_plain x hx)

theorem Step.entered_subset (hset : set.Parsed) (hstep : Step m m') (hm : Leads (start set) m)
    (hx : x ∈ m.progress.entered) : x ∈ m'.progress.entered := by
  refine ((hstep.lasting hset hm).met x (.inr hx)).resolve_left fun hhandled => ?_
  have hplain := leads_handled_plain hset (hm.tail hstep) hhandled
  exact Bool.false_ne_true (hplain.symm.trans (leads_entered_definition hset hm hx))

/-- The findings about duplicates are those about the pairs that were announced, in order. -/
structure Ledger (set : ModuleSet) (m : Config) : Prop where
  nodup : m.progress.announced.Nodup
  lt : ∀ x ∈ m.progress.announced, x < m.progress.tree.size
  notices : m.progress.notices = m.progress.announced.reverse.flatMap fun x =>
    (m.progress.tree.origin? set.tree.size x).elim [] set.tree.noticesAt
  heard : ∀ x, m.progress.Met x → m.progress.tree.declares x = true → x ∈ m.progress.announced
  source : ∀ x ∈ m.progress.announced, x ∈ set.modules ∨ m.progress.Met x ∨
    ∃ e ∈ m.progress.entered, x ∈ m.progress.tree.ancestors e

variable (hset : set.Parsed)

include hset

theorem start_ledger : Ledger set (start set) := by
  obtain ⟨new, hnodup, hnew, hannounced, hnotices⟩ := announceAll_announces none set.modules (initial set)
  have hstart := start_noted set
  have hlist : (start set).progress.announced = new.reverse := hannounced.trans (append_nil _)
  have hlt : ∀ x ∈ new, x < (start set).progress.tree.size := fun x hx =>
    lt_size_of_declares ((hnew x).mp hx).2.1
  refine ⟨?_, fun x hx => ?_, ?_, fun x hx => ?_, fun x hx => .inl ?_⟩
  · rw [hlist]
    exact nodup_reverse.mpr hnodup
  · rw [hlist, mem_reverse] at hx
    exact hlt x hx
  · rw [hlist, reverse_reverse]
    refine Eq.trans hnotices (flatMap_congr fun x hx => ?_)
    obtain ⟨y, horigin, hsame⟩ := leads_noticesAt hset .refl ((hnew x).mp hx).2.1
    rw [horigin]
    exact hsame
  · rcases hx with hx | hx
    · rw [hstart.handled_eq] at hx
      cases hx
    · rw [hstart.entered_eq] at hx
      cases hx
  · rw [hlist, mem_reverse] at hx
    exact ((hnew x).mp hx).1

theorem Step.ledger (hstep : Step m m') (hm : Leads (start set) m) (h : Ledger set m) : Ledger set m' := by
  have hm' : Leads (start set) m' := hm.tail hstep
  have hlasting := hstep.lasting hset hm
  have horigin : ∀ x ∈ m.progress.announced, m'.progress.tree.origin? set.tree.size x =
      m.progress.tree.origin? set.tree.size x := fun x hx => hstep.origin?_eq hset hm (h.lt x hx)
  obtain ⟨ids, hproclaims⟩ : ∃ ids, Proclaims (fun _ => True) m.progress m'.progress ids := by
    obtain ⟨action, rest, p⟩ := hstep
    obtain ⟨ids, hproclaims⟩ := action.perform_proclaims (wellFormed_of_leads hset hm)
    exact ⟨ids, hproclaims.announces, hproclaims.met, hproclaims.source, fun e _ => .inr (.inl trivial)⟩
  obtain ⟨new, hnodup, hnew, hannounced, hnotices⟩ := hproclaims.announces
  refine ⟨?_, fun x hx => ?_, ?_, fun x hx hdeclares => ?_, fun x hx => ?_⟩
  · rw [hannounced]
    refine nodup_append.mpr ⟨nodup_reverse.mpr hnodup, h.nodup, ?_⟩
    rintro x hx _ hold rfl
    exact ((hnew x).mp (mem_reverse.mp hx)).2.2 hold
  · rw [hannounced, mem_append, mem_reverse] at hx
    rcases hx with hx | hx
    · exact lt_size_of_declares ((hnew x).mp hx).2.1
    · exact (h.lt x hx).trans_le hlasting.size_le
  · rw [hnotices, h.notices, hannounced, reverse_append, reverse_reverse, flatMap_append]
    refine congrArg₂ (· ++ ·) (flatMap_congr fun x hx => ?_) (flatMap_congr fun x hx => ?_)
    · rw [horigin x (mem_reverse.mp hx)]
    · obtain ⟨y, hy, hsame⟩ := leads_noticesAt hset hm' ((hnew x).mp hx).2.1
      rw [hy]
      exact hsame
  · rw [hannounced, mem_append, mem_reverse, hnew]
    by_cases hold : x ∈ m.progress.announced
    · exact .inr hold
    · rcases hproclaims.met x hx with hmet | hids
      · have hlt : x < m.progress.tree.size := by
          have hcovered := (leads_tracked hset hm).2.covered
          exact hmet.elim (hcovered.handled_lt x) fun he =>
            lt_size_of_definition (hcovered.entered_definition x he)
        exact absurd (h.heard x hmet (hlasting.declares x hlt hdeclares)) hold
      · exact .inl ⟨hids, hdeclares, hold⟩
  · rw [hannounced, mem_append, mem_reverse] at hx
    rcases hx with hx | hx
    · exact .inr (hproclaims.source x ((hnew x).mp hx).1)
    · refine (h.source x hx).imp_right (.imp (hlasting.met x) ?_)
      rintro ⟨e, he, hancestor⟩
      have hlt := lt_size_of_definition ((leads_tracked hset hm).2.covered.entered_definition e he)
      exact ⟨e, hstep.entered_subset hset hm he, (hlasting.ancestors e hlt x (h.lt x hx)).mpr hancestor⟩

theorem leads_ledger (hm : Leads (start set) m) : Ledger set m :=
  induction_on (P := Ledger set) (start_ledger hset) (fun _ _ hm h hstep => hstep.ledger hset hm h) hm

theorem leads_not_declares (hm : Leads (start set) m) (hnamed : set.tree.NamedScope x)
    (hhandled : x ∈ m.progress.handled) : m.progress.tree.declares x = false := by
  obtain ⟨scopes, hscopes⟩ := leads_splitsInto hset hm
  have hmem : x ∈ scopes := by
    by_contra hmem
    exact leads_not_namedScope hset hm x hhandled ((hscopes.namedScope_iff hnamed.lt_size).mpr ⟨hnamed, hmem⟩)
  rw [Bool.eq_false_iff, Ne, declares_iff, not_or, not_not]
  refine ⟨?_, hscopes.namespaceDefinitions_scope hmem⟩
  have hscope : (m.progress.tree.kind x).isScope := (leads_flag hset isScope_shape rfl hm x).trans hnamed.1
  cases hkind : m.progress.tree.kind x <;> simp [hkind, isScope, isScopeOwner] at hscope ⊢

end Config

namespace Worklist

open Progress

/-- What is to be visited was to be visited before, or it is held by a pair that was and is met now, or by a
    definition that is entered. -/
theorem Step.pending_source {root : Scope} {passes : PairId → PairId → Prop} {o o' : Worklist}
    (hstep : Step root passes o o') {w : Visit} (hw : w ∈ o'.pending) :
    (∃ v ∈ o.pending, v.id = w.id) ∨ ∃ y, o'.progress.Met y ∧ w.id ∈ (o'.progress.tree.get y).held ∧
      ((∃ v ∈ o.pending, v.id = y) ∨ y ∈ o'.progress.entered) := by
  have hheld : ∀ {t : PairTree} {v : Visit}, w ∈ v.below t → w.id ∈ (t.get v.id).held := by
    intro t v hw
    obtain ⟨c, hc, rfl⟩ := mem_map.mp hw
    exact hc
  -- a usage is handled, and then nothing changes in what is written
  have husage : ∀ {v : Visit} {l : List Visit} {p p₁ p' : Progress}, w ∈ v.below p₁.tree ++ l →
      Noted { p with handled := v.id :: p.handled } p₁ → Alike p₁ p' →
      (∃ u ∈ v :: l, u.id = w.id) ∨ ∃ y, p'.Met y ∧ w.id ∈ (p'.tree.get y).held ∧
        ((∃ u ∈ v :: l, u.id = y) ∨ y ∈ p'.entered) := by
    intro v l p p₁ p' hw hnoted halike
    rcases mem_append.mp hw with hw | hw
    · refine .inr ⟨v.id, halike.met (hnoted.alike.met (.inl mem_cons_self)), ?_, .inl ⟨v, mem_cons_self, rfl⟩⟩
      rw [PairTree.held_eq_of_shape halike.shape_eq]
      exact hheld hw
    · exact .inl ⟨w, mem_cons_of_mem _ hw, rfl⟩
  cases hstep with
  | note hperm => exact .inl ⟨w, hperm.mem_iff.mp hw, rfl⟩
  | close => exact .inl ⟨w, hw, rfl⟩
  | skip => exact .inl ⟨w, mem_cons_of_mem _ hw, rfl⟩
  | @postpone v l l' p _ hperm =>
    rcases mem_cons.mp (hperm.mem_iff.mp hw) with rfl | hw
    · exact .inl ⟨v, mem_cons_self, rfl⟩
    · exact .inl ⟨w, mem_cons_of_mem _ hw, rfl⟩
  | @enter v l p p' _ _ hnoted =>
    rcases mem_append.mp hw with hw | hw
    · have hentered : v.id ∈ p'.entered := hnoted.entered_eq ▸ mem_cons_self
      have hbelow := hheld hw
      exact .inr ⟨v.id, .inr hentered, hbelow, .inr hentered⟩
    · exact .inl ⟨w, mem_cons_of_mem _ hw, rfl⟩
  | @handle v l p p' _ _ hnoted =>
    rcases mem_append.mp hw with hw | hw
    · have hhandled : v.id ∈ p'.handled := hnoted.handled_eq ▸ mem_cons_self
      exact .inr ⟨v.id, .inl hhandled, hheld hw, .inl ⟨v, mem_cons_self, rfl⟩⟩
    · exact .inl ⟨w, mem_cons_of_mem _ hw, rfl⟩
  | unbound _ _ hnoted => exact husage hw hnoted (reportName_alike ..)
  | circular hkind _ _ hnoted =>
    exact husage hw hnoted ((handled_tie_alike hkind hnoted _).trans (foldl_markCircular_marks ..).toAlike)
  | settled hkind _ _ _ hnoted => exact husage hw hnoted (handled_tie_alike hkind hnoted _)
  | @follow v l p p₁ p₂ p' e hkind _ _ _ hnoted haround hopen =>
    have hentered : e ∈ p'.entered := hopen.entered_eq ▸ mem_cons_self
    rcases mem_append.mp hw with hw | hw
    · exact .inr ⟨e, .inr hentered, hheld hw, .inr hentered⟩
    · have halike : Alike p₁ p₂ := (handled_tie_alike hkind hnoted e).trans haround.alike
      rcases husage hw hnoted halike with hold | ⟨y, hmet, hc, hy⟩
      · exact .inl hold
      · refine .inr ⟨y, hopen.alike.met (hmet.imp_right (mem_cons_of_mem _)), ?_, hy.imp_right fun hy => ?_⟩
        · rw [PairTree.held_eq_of_shape hopen.shape_eq]
          exact hc
        · rw [hopen.entered_eq]
          exact mem_cons_of_mem _ hy

end Worklist

/-- A definition below a pair is entered at a moment at which the pair is not handled yet. -/
def ModuleSet.EntersEarly (set : ModuleSet) (x : PairId) : Prop :=
  ∃ m, Config.Leads (Config.start set) m ∧ x ∉ m.progress.handled ∧ ∃ d ∈ m.progress.entered, x ∈ set.tree.ancestors d

namespace Config

open Progress PairTree

variable {set : ModuleSet} {m m' : Config} {x : PairId}

/-- A scope with a name is announced itself only around a definition that is entered before it is handled. -/
theorem entersEarly_of_announced (hset : set.Parsed) (hm : Leads (start set) m) (hnamed : set.tree.NamedScope x)
    (hx : x ∈ m.progress.announced) : set.EntersEarly x := by
  refine induction_on (P := fun m => x ∈ m.progress.announced → set.EntersEarly x) (fun hx => ?_)
    (fun m m' hm hP hstep hx => ?_) hm hx
  · obtain ⟨new, -, hnew, hannounced, -⟩ := announceAll_announces none set.modules (initial set)
    have hmem : x ∈ new.reverse ++ [] := hannounced ▸ hx
    rw [append_nil, mem_reverse, hnew] at hmem
    have hmodule := hset.tree_parsed.module_kind x hmem.1
    have hscope := hnamed.1
    cases hkind : set.tree.kind x <;> simp [hkind, isScope, isModule] at hscope hmodule
  · have hm' : Leads (start set) m' := hm.tail hstep
    obtain ⟨action, rest, p⟩ := hstep
    obtain ⟨ids, hproclaims⟩ := action.perform_proclaims (wellFormed_of_leads hset hm)
    obtain ⟨new, -, hnew, hannounced, -⟩ := hproclaims.announces
    rw [hannounced, mem_append, mem_reverse, hnew] at hx
    rcases hx with ⟨hids, hdeclares, -⟩ | hx
    · have hunhandled : x ∉ (action.perform p).2.handled := fun hhandled =>
        Bool.false_ne_true ((leads_not_declares hset hm' hnamed hhandled).symm.trans hdeclares)
      have hplain : x ∉ (action.perform p).2.entered := by
        intro hentered
        have hdef := leads_entered_definition hset hm' hentered
        exact Bool.false_ne_true ((not_scope_of_definition hdef).symm.trans hnamed.1)
      rcases hproclaims.source x hids with hmet | ⟨e, he, hancestor⟩
      · exact (hmet.elim hunhandled hplain).elim
      · refine ⟨_, hm', hunhandled, e, he, ?_⟩
        have hdef := leads_entered_definition hset hm' he
        exact (leads_ancestors_iff hset hm' hnamed.lt_size (lt_size_of_definition hdef)).mp hancestor
    · exact hP hx

/-- The scopes with a name around a pair were met or announced, if they bring in names. -/
def Expects (set : ModuleSet) (m : Config) (y : PairId) : Prop :=
  ∀ a ∈ m.progress.tree.ancestors y, set.tree.NamedScope a → set.tree.declares a = true →
    m.progress.Met a ∨ a ∈ m.progress.announced

theorem start_expects (hset : set.Parsed) : (∀ v ∈ (start set).worklist.pending, Expects set (start set) v.id) ∧
    ∀ e ∈ (start set).progress.entered, Expects set (start set) e := by
  refine ⟨fun v hv a ha => ?_, fun e he => ?_⟩
  · rw [pending_start] at hv
    obtain ⟨module, hmodule, rfl⟩ := mem_map.mp hv
    have hroot : (start set).progress.tree.parent? module = none :=
      (parent?_eq_of_shape (start_noted set).shape_eq module).trans (hset.tree_parsed.module_root hmodule)
    rw [ancestors_eq_nil hroot] at ha
    cases ha
  · rw [(start_noted set).entered_eq] at he
    cases he

theorem Expects.below (h : Expects set m x) (hwf : m.progress.tree.WellFormed) (hmet : m.progress.Met x) {c : PairId}
    (hc : c ∈ (m.progress.tree.get x).held) : Expects set m c := by
  intro a ha hnamed hdeclares
  rw [hwf.ancestors_eq_cons (hwf.mem_held_iff.mp hc)] at ha
  rcases mem_cons.mp ha with rfl | ha
  · exact .inl hmet
  · exact h a ha hnamed hdeclares

theorem Step.announced_subset (hset : set.Parsed) (hstep : Step m m') (hm : Leads (start set) m)
    (hx : x ∈ m.progress.announced) : x ∈ m'.progress.announced := by
  obtain ⟨action, rest, p⟩ := hstep
  obtain ⟨ids, hproclaims⟩ := action.perform_proclaims (wellFormed_of_leads hset hm)
  obtain ⟨new, -, -, heq, -⟩ := hproclaims.announces
  rw [heq]
  exact mem_append_right _ hx

theorem Expects.step (h : Expects set m x) (hset : set.Parsed) (hstep : Step m m') (hm : Leads (start set) m)
    (hx : x < m.progress.tree.size) : Expects set m' x := by
  intro a ha hnamed hdeclares
  have hlasting := hstep.lasting hset hm
  have hlt := hnamed.lt_size.trans_le (leads_unfolds hset hm).size_le
  exact (h a ((hlasting.ancestors x hx a hlt).mp ha) hnamed hdeclares).imp (hlasting.met a)
    (hstep.announced_subset hset hm)

/-- Around a definition that a name leads to, all that brings in names is announced. -/
theorem Step.expects_of_entered (hset : set.Parsed) (hstep : Step m m') (hm : Leads (start set) m) {e : PairId}
    (he : e ∈ m'.progress.entered) :
    e ∈ m.progress.entered ∨ (∃ v ∈ m.worklist.pending, v.id = e) ∨ Expects set m' e := by
  have hm' : Leads (start set) m' := hm.tail hstep
  obtain ⟨action, rest, p⟩ := hstep
  obtain ⟨ids, hproclaims⟩ := action.perform_proclaims (wellFormed_of_leads hset hm)
  refine (hproclaims.around e he).imp_right (.imp ?_ fun hall a ha hnamed hdeclares => ?_)
  · rintro ⟨n, context, rfl⟩
    exact ⟨_, mem_cons_self, rfl⟩
  · by_cases hsplit : (action.perform p).2.tree.NamedScope a
    · obtain ⟨scopes, hscopes⟩ := leads_splitsInto hset hm'
      have hmem := ((hscopes.namedScope_iff hnamed.lt_size).mp hsplit).2
      obtain ⟨new, -, hnew, hannounced, -⟩ := hproclaims.announces
      rw [hannounced, mem_append, mem_reverse, hnew,
        hscopes.declares_eq hset.tree_parsed.wellFormed hnamed.lt_size hmem]
      by_cases hold : a ∈ p.announced
      · exact .inr (.inr hold)
      · exact .inr (.inl ⟨hall a ha, hdeclares, hold⟩)
    · exact .inl (leads_met_of_split hset hm' hnamed hsplit)

theorem leads_expects (hset : set.Parsed) (hm : Leads (start set) m) :
    (∀ v ∈ m.worklist.pending, Expects set m v.id) ∧ ∀ e ∈ m.progress.entered, Expects set m e := by
  refine induction_on (P := fun m => (∀ v ∈ m.worklist.pending, Expects set m v.id) ∧
    ∀ e ∈ m.progress.entered, Expects set m e) (start_expects hset) (fun m m' hm hP hstep => ?_) hm
  have hm' : Leads (start set) m' := hm.tail hstep
  have hwf' := wellFormed_of_leads hset hm'
  obtain ⟨horderly, htracked⟩ := leads_tracked hset hm
  have hpending : ∀ v ∈ m.worklist.pending, Expects set m' v.id := fun v hv =>
    (hP.1 v hv).step hset hstep hm (htracked.covered.ids_lt v.id (mem_map_of_mem hv))
  have hentered : ∀ e ∈ m'.progress.entered, Expects set m' e := by
    intro e he
    rcases hstep.expects_of_entered hset hm he with hold | ⟨v, hv, rfl⟩ | hnew
    · exact (hP.2 e hold).step hset hstep hm (lt_size_of_definition (htracked.covered.entered_definition e hold))
    · exact hpending v hv
    · exact hnew
  refine ⟨fun w hw => ?_, hentered⟩
  rcases (hstep.worklist_of_tracked hm horderly htracked).pending_source hw with ⟨v, hv, heq⟩ | ⟨y, hmet, hheld, hy⟩
  · exact heq ▸ hpending v hv
  · have hexpects : Expects set m' y := by
      rcases hy with ⟨v, hv, rfl⟩ | hy
      · exact hpending v hv
      · exact hentered y hy
    exact hexpects.below hwf' hmet hheld

end Config

end PairMarkup
