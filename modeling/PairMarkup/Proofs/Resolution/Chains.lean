import Mathlib.Data.List.Chain
import PairMarkup.Proofs.Resolution.Binding

namespace PairMarkup

open List Relation Kind Option

variable {α : Type} {R : α → α → Prop} {x : α} {first last : α} {l : List α}

theorem reflTransGen_getLast (hchain : l.IsChain R)
    (hlast : l.getLast? = some last) (hx : x ∈ l) : ReflTransGen R x last := by
  refine hchain.backwards_induction (ReflTransGen R · last) _ (fun a b hab hb => .head hab hb) (fun hne => ?_) x hx
  rw [getLast?_eq_some_getLast hne] at hlast
  rw [some.inj hlast]

theorem reflTransGen_head (hchain : l.IsChain R)
    (hfirst : l.head? = some first) (hx : x ∈ l) : ReflTransGen R first x := by
  refine hchain.induction (ReflTransGen R first) _ (fun a b hab ha => .tail ha hab) (fun hne => ?_) x hx
  rw [head?_eq_some_head hne] at hfirst
  rw [some.inj hfirst]

/-- If the last of a chain leads back to the first, everything on it leads to something on it. -/
theorem exists_next_of_circle (hchain : l.IsChain R) (hfirst : l.head? = some first) (hlast : l.getLast? = some last)
    (hback : R last first) (hx : x ∈ l) : ∃ y ∈ l, R x y := by
  obtain ⟨before, after, rfl⟩ := append_of_mem hx
  cases after with
  | nil =>
    rw [getLast?_concat] at hlast
    exact ⟨first, mem_of_head? hfirst, some.inj hlast ▸ hback⟩
  | cons y after =>
    refine ⟨y, by simp, ?_⟩
    exact (isChain_cons_cons.mp (isChain_append.mp hchain).2.1).1

namespace PairTree

/-- An alias definition inside of another one. -/
def Nested (t : PairTree) (d : PairId) : Prop := (t.kind d).isAliasDefinition = true ∧ t.enclosingDefinition? d ≠ none

instance (t : PairTree) (d : PairId) : Decidable (t.Nested d) := inferInstanceAs (Decidable (_ ∧ _))

theorem WellFormed.enclosingDefinition?_of_parent {t : PairTree} (hwf : t.WellFormed) {c p : PairId}
    (h : t.parent? c = some p) : t.enclosingDefinition? c =
      if (t.kind p).isAliasDefinition then some p else t.enclosingDefinition? p := by
  rw [enclosingDefinition?, hwf.ancestors_eq_cons h, find?_cons]
  cases (t.kind p).isAliasDefinition <;> rfl

end PairTree

theorem Progress.KeepsPlaces.nested_iff {modules : List PairId} {p p' : Progress}
    (h : KeepsPlaces modules p p') {d : PairId} : p'.tree.Nested d ↔ p.tree.Nested d := by
  rw [PairTree.Nested, h.definition_eq]
  refine and_congr_right fun hdef => ?_
  rw [h.enclosing_eq d (PairTree.lt_size_of_definition hdef)]

/-- What the chain of a visit says. -/
structure Visit.Follows (t : PairTree) (v : Visit) : Prop where
  refers : v.chain.IsChain t.Refers
  subset_opens : v.chain ⊆ v.opens
  last_eq : (t.kind v.id).isAliasDefinition = false → v.chain.getLast? = t.enclosingDefinition? v.id
  /-- Nothing is open off the chain, unless a nested definition started it. -/
  opens_eq : (t.kind v.id).isAliasDefinition = false →
    v.opens = v.chain.reverse ∨ ∃ x, v.chain.head? = some x ∧ t.Nested x
  definition_opens : (t.kind v.id).isAliasDefinition = true → v.opens = [] ∨ t.Nested v.id

namespace Visit

variable {t : PairTree} {v : Visit}

/-- What a pair holds is visited in the chain of the pair, or of the definition that
    the pair is. -/
theorem below_follows (hwf : t.WellFormed) (hrefers : v.chain.IsChain t.Refers) (hsubset : v.chain ⊆ v.opens)
    (hlast : v.chain.getLast? =
      if (t.kind v.id).isAliasDefinition then some v.id else t.enclosingDefinition? v.id)
    (hopens : v.opens = v.chain.reverse ∨ ∃ x, v.chain.head? = some x ∧ t.Nested x) :
    ∀ w ∈ v.below t, w.Follows t := by
  intro w hw
  obtain ⟨c, hc, rfl⟩ := mem_map.mp hw
  have hlast : v.chain.getLast? = t.enclosingDefinition? c :=
    hlast.trans (hwf.enclosingDefinition?_of_parent (hwf.mem_held_iff.mp hc)).symm
  refine ⟨hrefers, hsubset, fun _ => hlast, fun _ => hopens, fun hdef => ?_⟩
  by_cases hnone : t.enclosingDefinition? c = none
  · rw [hnone, getLast?_eq_none_iff] at hlast
    rw [hlast] at hopens
    exact .inl (hopens.resolve_right (by simp))
  · exact .inr ⟨hdef, hnone⟩

theorem Follows.below (h : v.Follows t) (hwf : t.WellFormed)
    (hplain : (t.kind v.id).isAliasDefinition = false) : ∀ w ∈ v.below t, w.Follows t := by
  refine below_follows hwf h.refers h.subset_opens ?_ (h.opens_eq hplain)
  rw [hplain]
  exact h.last_eq hplain

section

variable (h : v.Follows t) (husage : (t.kind v.id).isAliasUsage)

include h husage

theorem Follows.enclosing_mem_chain {d : PairId} (hd : t.enclosingDefinition? v.id = some d) : d ∈ v.chain :=
  mem_of_getLast? ((h.last_eq (isAliasDefinition_of_usage husage)).trans hd)

/-- If something is open off the chain of a usage, a nested definition started it. -/
theorem Follows.exists_nested {e : PairId} (hoff : e ∉ v.chain) (hopen : e ∈ v.opens) :
    ∃ x, v.chain.head? = some x ∧ t.Nested x := by
  refine (h.opens_eq (isAliasDefinition_of_usage husage)).resolve_left fun hopens => ?_
  rw [hopens, mem_reverse] at hopen
  exact hoff hopen

/-- The first of a chain leads to the definition around the usage. -/
theorem Follows.reaches_enclosing
    {x d : PairId} (hx : v.chain.head? = some x) (hd : t.enclosingDefinition? v.id = some d) :
    ReflTransGen t.Refers x d :=
  reflTransGen_head h.refers hx (h.enclosing_mem_chain husage hd)

end

open Progress in
theorem Follows.mono {modules : List PairId} {p p' : Progress} (h : v.Follows p.tree)
    (hplaces : KeepsPlaces modules p p') (hrefers : ∀ a b, p.tree.Refers a b → p'.tree.Refers a b)
    (hlt : v.id < p.tree.size) : v.Follows p'.tree := by
  have hkind := hplaces.definition_eq v.id
  refine ⟨h.refers.imp hrefers, h.subset_opens, fun hplain => ?_, fun hplain => ?_, fun hdef => ?_⟩
  · rw [hplaces.enclosing_eq v.id hlt]
    exact h.last_eq (hkind.symm.trans hplain)
  · simp only [hplaces.nested_iff]
    exact h.opens_eq (hkind.symm.trans hplain)
  · rw [hplaces.nested_iff]
    exact h.definition_opens (hkind.symm.trans hdef)

end Visit

namespace Progress

variable {modules : List PairId} {p p' : Progress}

theorem Ties.refers_iff {u e : PairId} {circle : List PairId} (h : Ties modules p p' u e circle)
    (hu : p.tree.kind u = .aliasUsage none) {d x : PairId} :
    p'.tree.Refers d x ↔ p.tree.Refers d x ∨ p.tree.enclosingDefinition? u = some d ∧ x = e := by
  have hplace : ∀ y r, p.tree.kind y = .aliasUsage r →
      p'.tree.enclosingDefinition? y = p.tree.enclosingDefinition? y := by
    intro y r hy
    exact h.enclosing_eq y (PairTree.lt_size_of_usage (by rw [hy]; rfl))
  constructor
  · rintro ⟨y, hy, hkind⟩
    rcases (h.tie_iff y _).mp hkind with ⟨rfl, hx⟩ | ⟨-, hold⟩
    · exact .inr ⟨(hplace y _ hu).symm.trans hy, some.inj hx⟩
    · exact .inl ⟨y, (hplace y _ hold).symm.trans hy, hold⟩
  · rintro (⟨y, hy, hold⟩ | ⟨hd, rfl⟩)
    · have hne : y ≠ u := by
        rintro rfl
        rw [hu] at hold
        cases hold
      exact ⟨y, (hplace y _ hold).trans hy, (h.tie_iff y _).mpr (.inr ⟨hne, hold⟩)⟩
    · exact ⟨u, (hplace u _ hu).trans hd, (h.tie_iff u _).mpr (.inl ⟨rfl, rfl⟩)⟩

end Progress

namespace Worklist

open Progress

variable {modules : List PairId} {size₀ : Nat} {root : Scope} {passes : PairId → PairId → Prop}
  {l : List Visit} {opens : List PairId} {p p₁ p' : Progress} {v : Visit} {e : PairId}

theorem Tracked.follows_mono {w : Visit} (h : Tracked modules size₀ root ⟨l, opens, p⟩) (hw : w ∈ l)
    (hfollows : w.Follows p.tree) (hplaces : KeepsPlaces modules p p')
    (hrefers : ∀ a b, p.tree.Refers a b → p'.tree.Refers a b) : w.Follows p'.tree :=
  hfollows.mono hplaces hrefers (h.covered.ids_lt w.id (mem_map_of_mem hw))

/-- After a pair is handled, what it holds is visited instead. -/
theorem Tracked.follows_held (h : Tracked modules size₀ root ⟨v :: l, opens, p⟩)
    (hfollows : ∀ w ∈ v :: l, w.Follows p.tree)
    (hplain : (p.tree.kind v.id).isAliasDefinition = false) (hwf : p'.tree.WellFormed)
    (hplaces : KeepsPlaces modules p p') (hrefers : ∀ a b, p.tree.Refers a b → p'.tree.Refers a b) :
    ∀ w ∈ v.below p'.tree ++ l, w.Follows p'.tree := by
  intro w hw
  have hkeep : ∀ u ∈ v :: l, u.Follows p'.tree := fun u hu =>
    h.follows_mono hu (hfollows u hu) hplaces hrefers
  rcases mem_append.mp hw with hw | hw
  · exact (hkeep v mem_cons_self).below hwf ((hplaces.definition_eq v.id).trans hplain) w hw
  · exact hkeep w (mem_cons_of_mem _ hw)

theorem Tracked.unbound (h : Tracked modules size₀ root ⟨v :: l, opens, p⟩) (hbound : p.Bound modules)
    (husage : (p.tree.kind v.id).isAliasUsage) : p.tree.kind v.id = .aliasUsage none :=
  (hbound.unhandled v.id husage (h.not_handled husage)).1

theorem Tracked.follows_tied {circle : List PairId}
    (h : Tracked modules size₀ root ⟨v :: l, opens, p⟩) (hbound : p.Bound modules)
    (hfollows : ∀ w ∈ v :: l, w.Follows p.tree) (husage : (p.tree.kind v.id).isAliasUsage)
    (hwf : p'.tree.WellFormed) (hties : Ties modules p p' v.id e circle)
    (hshape : p'.tree.shape = p₁.tree.shape) : ∀ w ∈ v.below p₁.tree ++ l, w.Follows p'.tree := by
  rw [← Config.below_eq_of_shape hshape]
  exact h.follows_held hfollows (isAliasDefinition_of_usage husage) hwf hties.toKeepsPlaces
    fun _ _ hold => (hties.refers_iff (h.unbound hbound husage)).mpr (.inl hold)

/-- A definition that is entered as it stands starts a chain. -/
theorem Tracked.follows_enter (h : Tracked modules size₀ root ⟨v :: l, opens, p⟩)
    (hfollows : ∀ w ∈ v :: l, w.Follows p.tree) (hdef : (p.tree.kind v.id).isAliasDefinition)
    (hwf : p'.tree.WellFormed) (hkeeps : KeepsTies modules p p') :
    ∀ w ∈ { v with chain := [v.id], opens := v.id :: v.opens }.below p'.tree ++ l, w.Follows p'.tree := by
  have hkeep : ∀ u ∈ v :: l, u.Follows p'.tree := fun u hu =>
    h.follows_mono hu (hfollows u hu) hkeeps.toKeepsPlaces fun _ _ => hkeeps.refers_iff.mpr
  have hdef' := (hkeeps.definition_eq v.id).trans hdef
  intro w hw
  rcases mem_append.mp hw with hw | hw
  · refine Visit.below_follows hwf (.singleton _) ?_ ?_ ?_ w hw
    · simp
    · rw [if_pos hdef']
      rfl
    · refine ((hkeep v mem_cons_self).definition_opens hdef').imp (fun hopens => ?_) fun hnested => ?_
      · exact congrArg (v.id :: ·) hopens
      · exact ⟨v.id, rfl, hnested⟩
  · exact hkeep w (mem_cons_of_mem _ hw)

/-- A definition that is entered through a usage continues its chain. -/
theorem Tracked.follows_body {aliases : String → Option PairId}
    (h : Tracked modules size₀ root ⟨v :: l, opens, p⟩) (hbound : p.Bound modules)
    (hfollows : v.Follows p.tree) (husage : (p.tree.kind v.id).isAliasUsage)
    (hwf : p'.tree.WellFormed) (hties : Ties modules p p' v.id e [])
    (hdef : (p'.tree.kind e).isAliasDefinition) :
    ∀ w ∈ (Visit.mk aliases (v.chain ++ [e]) (e :: v.opens) e).below p'.tree, w.Follows p'.tree := by
  have hunbound := h.unbound hbound husage
  have hv : v.Follows p'.tree := h.follows_mono mem_cons_self hfollows hties.toKeepsPlaces
    fun _ _ hold => (hties.refers_iff hunbound).mpr (.inl hold)
  have hplain : (p.tree.kind v.id).isAliasDefinition = false := isAliasDefinition_of_usage husage
  refine Visit.below_follows hwf ?_ ?_ ?_ ?_
  · refine hv.refers.append (.singleton e) fun d hd x hx => (hties.refers_iff hunbound).mpr (.inr ?_)
    exact ⟨(hfollows.last_eq hplain).symm.trans hd, (some.inj hx).symm⟩
  · simpa using subset_cons_of_subset e hv.subset_opens
  · rw [if_pos hdef, getLast?_concat]
  · refine (hv.opens_eq ((hties.definition_eq v.id).trans hplain)).imp (fun hopens => ?_)
      fun ⟨x, hx, hnested⟩ => ⟨x, ?_, hnested⟩
    · rw [reverse_concat, hopens]
    · rw [head?_append, hx]
      rfl

theorem Step.follows {o o' : Worklist} (hstep : Step root passes o o')
    (htracked : Tracked modules size₀ root o) (hbound : o.progress.Bound modules)
    (h : ∀ v ∈ o.pending, v.Follows o.progress.tree) : ∀ v ∈ o'.pending, v.Follows o'.progress.tree := by
  have htracked' := hstep.tracked htracked
  cases hstep with
  | note hperm hnoted =>
    intro w hw
    have hkeeps : KeepsTies modules _ _ := hnoted.keepsTies
    have hw' := hperm.mem_iff.mp hw
    exact htracked.follows_mono hw' (h w hw') hkeeps.toKeepsPlaces fun _ _ => hkeeps.refers_iff.mpr
  | close hnoted =>
    intro w hw
    have hkeeps : KeepsTies modules _ _ := hnoted.keepsTies
    exact htracked.follows_mono hw (h w hw) hkeeps.toKeepsPlaces fun _ _ => hkeeps.refers_iff.mpr
  | skip => exact fun w hw => h w (mem_cons_of_mem _ hw)
  | @postpone v l l' p hdef hperm =>
    intro w hw
    rcases mem_cons.mp (hperm.mem_iff.mp hw) with rfl | hw
    · have hnot : ¬ (p.tree.kind v.id).isAliasDefinition = false := by simp [hdef]
      exact ⟨.nil, nil_subset _, (absurd · hnot), (absurd · hnot), (h v mem_cons_self).definition_opens⟩
    · exact h w (mem_cons_of_mem _ hw)
  | enter hdef _ hnoted =>
    exact htracked.follows_enter h hdef htracked'.covered.wellFormed (.of_met hnoted)
  | handle hplain _ hnoted =>
    have hkeeps : KeepsTies modules _ _ := keepsTies_handle htracked.covered.wellFormed hnoted
    exact htracked.follows_held h hplain htracked'.covered.wellFormed hkeeps.toKeepsPlaces
      fun _ _ => hkeeps.refers_iff.mpr
  | @unbound v l p p₁ branch husage _ hnoted =>
    have hsame : SameTies modules p (p₁.reportName branch .aliasIsNotDefined v.id) :=
      (KeepsTies.of_met hnoted).toSameTies.trans (.reportName ..)
    have hshape := (reportName_alike p₁ branch .aliasIsNotDefined v.id).shape_eq
    rw [← Config.below_eq_of_shape hshape]
    exact htracked.follows_held h (isAliasDefinition_of_usage husage) htracked'.covered.wellFormed
      hsame.toKeepsPlaces fun _ _ => hsame.refers_iff.mpr
  | @circular v l p p₁ branch e husage _ _ hnoted =>
    refine htracked.follows_tied hbound h husage htracked'.covered.wellFormed
      (ties_circular husage hnoted branch _) ?_
    exact (foldl_markCircular_marks ..).shape_eq.trans (handled_tie_alike husage hnoted e).shape_eq
  | @settled v l p p₁ e husage _ _ _ hnoted =>
    exact htracked.follows_tied hbound h husage htracked'.covered.wellFormed
      (ties_settled husage hnoted) (handled_tie_alike husage hnoted e).shape_eq
  | @follow v l p p₁ p₂ p' e husage _ _ _ hnoted haround hopen =>
    have hties : Ties modules p p' v.id e [] := ties_follow husage hnoted haround hopen
    intro w hw
    rcases mem_append.mp hw with hw | hw
    · refine htracked.follows_body hbound (h v mem_cons_self) husage htracked'.covered.wellFormed hties ?_ w hw
      exact htracked'.covered.entered_definition e (hopen.entered_eq ▸ mem_cons_self)
    · refine htracked.follows_tied hbound h husage htracked'.covered.wellFormed hties ?_ w hw
      exact hopen.shape_eq.trans (haround.shape_eq.trans (handled_tie_alike husage hnoted e).shape_eq)

end Worklist

end PairMarkup
