import PairMarkup.Proofs.Resolution.Circularity

namespace PairMarkup

open List Relation

theorem idxOf_lt_of_sublist {order : List PairId} (hnodup : order.Nodup) {d e : PairId}
    (h : [e, d].Sublist order) : order.idxOf e < order.idxOf d := by
  induction order with
  | nil => cases h
  | cons a order ih =>
    obtain ⟨hnot, hnodup⟩ := nodup_cons.mp hnodup
    have hne : ∀ {x}, x ∈ order → a ≠ x := fun hx heq => hnot (heq ▸ hx)
    cases h with
    | cons _ h =>
      rw [idxOf_cons_ne _ (hne (h.subset (by simp))), idxOf_cons_ne _ (hne (h.subset (by simp)))]
      exact Nat.succ_lt_succ (ih hnodup h)
    | cons_cons _ h =>
      rw [idxOf_cons_self, idxOf_cons_ne _ (hne (h.subset (by simp)))]
      exact Nat.succ_pos _

variable {α : Type} {R : α → α → Prop}

/-- Every step of a path starts after its beginning and leads to what its end leads to. -/
theorem transGen_between {a b c : α} (h : TransGen R a b) (hc : ReflTransGen R b c) : TransGen (fun x y =>
      R x y ∧ ReflTransGen R a x ∧ ReflTransGen R y c) a b := by
  induction h with
  | single hab => exact .single ⟨hab, .refl, hc⟩
  | tail hab hbb' ih => exact .tail (ih (.head hbb' hc)) ⟨hbb', hab.to_reflTransGen, hc⟩

theorem lt_of_transGen {r : α → Nat} {a b : α}
    (hrank : ∀ x y, R x y → r y < r x) (h : TransGen R a b) : r b < r a := by
  induction h with
  | single hab => exact hrank _ _ hab
  | tail _ hbc ih => exact (hrank _ _ hbc).trans ih

/-- A reference between definitions that are not marked as circular. -/
def PairTree.RefersUnmarked (t : PairTree) (d e : PairId) : Prop := t.Refers d e ∧ ¬ t.Marked d ∧ ¬ t.Marked e

/-- A reference goes back in an order of definitions, or else it is between two that are
    marked, or it was passed over and a nested definition leads to where it starts. -/
def PairTree.Excused (passes : PairId → PairId → Prop) (order : List PairId) (t : PairTree) (d e : PairId) : Prop :=
  (passes d e ∧ ∃ x, t.Nested x ∧ Relation.ReflTransGen t.Refers x d) ∨
    (t.Marked d ∧ t.Marked e) ∨ [e, d].Sublist order

open Progress in
theorem PairTree.Excused.mono {modules order order' : List PairId} {passes : PairId → PairId → Prop}
    {p p' : Progress} {d e : PairId} (h : p.tree.Excused passes order d e)
    (hplaces : KeepsPlaces modules p p') (hrefers : ∀ a b, p.tree.Refers a b → p'.tree.Refers a b)
    (hmarked : ∀ d, p.tree.Marked d → p'.tree.Marked d) (horder : order.Sublist order') :
    p'.tree.Excused passes order' d e := by
  refine h.imp (And.imp_right ?_) (Or.imp (And.imp (hmarked d) (hmarked e)) (·.trans horder))
  rintro ⟨x, hnested, hpath⟩
  exact ⟨x, hplaces.nested_iff.mpr hnested, ReflTransGen.mono hrefers _ _ hpath⟩

namespace Worklist

open Progress

/-- An order of the definitions entered so far. What is open comes last, innermost
    first. -/
structure Ranked (passes : PairId → PairId → Prop) (o : Worklist) (order : List PairId) : Prop where
  nodup : order.Nodup
  opens_suffix : o.opens <:+ order
  mem_iff : ∀ d, d ∈ order ↔ d ∈ o.progress.entered
  refers : ∀ d e, o.progress.tree.Refers d e → o.progress.tree.Excused passes order d e

variable {modules : List PairId} {size₀ : Nat} {root : Scope} {passes : PairId → PairId → Prop}
  {l l' : List Visit} {opens opens' order : List PairId} {p p' : Progress} {v : Visit} {d e : PairId}

namespace Ranked

theorem of_same (h : Ranked passes ⟨l, opens, p⟩ order) (hsame : SameTies modules p p')
    (hentered : p'.entered = p.entered) (hopens : opens' <:+ opens) :
    Ranked passes ⟨l', opens', p'⟩ order where
  nodup := h.nodup
  opens_suffix := hopens.trans h.opens_suffix
  mem_iff d := (h.mem_iff d).trans (by rw [hentered])
  refers d e hrefers := (h.refers d e (hsame.refers_iff.mp hrefers)).mono hsame.toKeepsPlaces
    (fun _ _ => hsame.refers_iff.mpr) (fun d => (hsame.marked_iff d).mpr) (.refl _)

/-- A definition that is entered comes right before those that are open. -/
theorem enter (h : Ranked passes ⟨l, opens, p⟩ order) (hnew : e ∉ p.entered) {done : List PairId}
    (horder : done ++ opens = order) (hentered : p'.entered = e :: p.entered)
    (hplaces : KeepsPlaces modules p p') (hmarked : ∀ d, p.tree.Marked d → p'.tree.Marked d)
    (hkept : ∀ d x, p.tree.Refers d x → p'.tree.Refers d x)
    (hmade : ∀ d x, p'.tree.Refers d x → p.tree.Refers d x ∨ d ∈ opens ∧ x = e) :
    Ranked passes ⟨l', e :: opens, p'⟩ (done ++ e :: opens) := by
  subst horder
  have hsub : (done ++ opens).Sublist (done ++ e :: opens) :=
    (List.Sublist.refl done).append (sublist_cons_self e opens)
  refine ⟨?_, suffix_append .., fun d => ?_, fun d x hx => ?_⟩
  · rw [nodup_middle, nodup_cons]
    exact ⟨fun hmem => hnew ((h.mem_iff e).mp hmem), h.nodup⟩
  · rw [hentered, mem_append, mem_cons, or_left_comm, ← mem_append, h.mem_iff, mem_cons]
  · rcases hmade d x hx with hold | ⟨hd, rfl⟩
    · exact (h.refers d x hold).mono hplaces hkept hmarked hsub
    · have hlast : [x, d].Sublist (x :: opens) := (singleton_sublist.mpr hd).cons_cons x
      exact .inr (.inr (hlast.trans (sublist_append_right ..)))

theorem tie {circle : List PairId} (h : Ranked passes ⟨l, opens, p⟩ order)
    (hties : Ties modules p p' v.id e circle) (hunbound : p.tree.kind v.id = .aliasUsage none)
    (hentered : p'.entered = p.entered)
    (hnew : ∀ d, p.tree.enclosingDefinition? v.id = some d → p'.tree.Excused passes order d e) :
    Ranked passes ⟨l', opens, p'⟩ order where
  nodup := h.nodup
  opens_suffix := h.opens_suffix
  mem_iff d := (h.mem_iff d).trans (by rw [hentered])
  refers d x hx := by
    rcases (hties.refers_iff hunbound).mp hx with hold | ⟨hd, rfl⟩
    · exact (h.refers d x hold).mono hties.toKeepsPlaces (fun _ _ hold => (hties.refers_iff hunbound).mpr (.inl hold))
        (fun d hd => (hties.marked_iff d).mpr (.inl hd)) (.refl _)
    · exact hnew d hd

end Ranked

/-- A circle that is closed marks all of it, the definition around the usage
    included. -/
theorem Ranked.circular (h : Ranked passes ⟨v :: l, v.opens, p⟩ order)
    (htracked : Tracked modules size₀ root ⟨v :: l, v.opens, p⟩) (hbound : p.Bound modules)
    (hv : v.Follows p.tree) (husage : (p.tree.kind v.id).isAliasUsage) (he : e ∈ v.chain)
    (hties : Ties modules p p' v.id e (v.chain.dropWhile (· ≠ e))) (hentered : p'.entered = p.entered) :
    Ranked passes ⟨l', v.opens, p'⟩ order := by
  -- All of the circle is open, so it was entered, and what was entered is a definition.
  have hmarked : ∀ x ∈ v.chain.dropWhile (· ≠ e), p'.tree.Marked x := by
    intro x hx
    refine (hties.marked_iff x).mpr (.inr ⟨hx, htracked.covered.entered_definition x ?_⟩)
    exact (h.mem_iff x).mp (h.opens_suffix.subset (hv.subset_opens ((dropWhile_sublist _).subset hx)))
  refine h.tie hties (htracked.unbound hbound husage) hentered fun d hd => .inr (.inl ⟨?_, ?_⟩)
  · obtain ⟨-, -, last, hlast, hlast', -⟩ := htracked.closes hbound hv husage he hties
    rw [hlast'] at hd
    exact hmarked d (mem_of_getLast? (hlast.trans hd))
  · obtain ⟨before, after, -, hcircle⟩ := exists_dropWhile_ne he
    exact hmarked e (hcircle ▸ mem_cons_self)

/-- A tie to a definition off the chain goes back in the order, or it passes over a
    definition that is open. -/
theorem Ranked.settled (h : Ranked passes ⟨v :: l, v.opens, p⟩ order) (hv : v.Follows p.tree)
    (husage : (p.tree.kind v.id).isAliasUsage) (hunbound : p.tree.kind v.id = .aliasUsage none)
    (hoff : e ∉ v.chain) (hold : e ∈ p.entered)
    (hpasses : ∀ d, p.tree.enclosingDefinition? v.id = some d → e ∈ v.opens → passes d e)
    (hties : Ties modules p p' v.id e []) (hentered : p'.entered = p.entered) :
    Ranked passes ⟨l', v.opens, p'⟩ order := by
  refine h.tie hties hunbound hentered fun d hd => ?_
  by_cases hopen : e ∈ v.opens
  · obtain ⟨x, hx, hnested⟩ := hv.exists_nested husage hoff hopen
    refine .inl ⟨hpasses d hd hopen, x, hties.nested_iff.mpr hnested, ?_⟩
    exact ReflTransGen.mono (fun _ _ hold => (hties.refers_iff hunbound).mpr (.inl hold)) _ _
      (hv.reaches_enclosing husage hx hd)
  · obtain ⟨done, rfl⟩ := h.opens_suffix
    have hdone := (mem_append.mp ((h.mem_iff e).mpr hold)).resolve_right hopen
    have hd := hv.subset_opens (hv.enclosing_mem_chain husage hd)
    exact .inr (.inr ((singleton_sublist.mpr hdone).append (singleton_sublist.mpr hd)))

theorem Step.ranked {o o' : Worklist} (hstep : Step root passes o o')
    (htracked : Tracked modules size₀ root o) (hfaithful : o.Faithful modules)
    (h : ∃ order, o.Ranked passes order) : ∃ order, o'.Ranked passes order := by
  obtain ⟨order, h⟩ := h
  cases hstep with
  | note _ hnoted =>
    have hkeeps : KeepsTies modules _ _ := hnoted.keepsTies
    exact ⟨order, h.of_same hkeeps.toSameTies hnoted.entered_eq (suffix_refl _)⟩
  | close hnoted =>
    have hkeeps : KeepsTies modules _ _ := hnoted.keepsTies
    exact ⟨order, h.of_same hkeeps.toSameTies hnoted.entered_eq (suffix_cons ..)⟩
  | skip => exact ⟨order, h.nodup, h.opens_suffix, h.mem_iff, h.refers⟩
  | postpone => exact ⟨order, h.nodup, h.opens_suffix, h.mem_iff, h.refers⟩
  | @enter v l p p' _ hnew hnoted =>
    have hkeeps : KeepsTies modules p p' := .of_met hnoted
    obtain ⟨done, horder⟩ := h.opens_suffix
    exact ⟨_, h.enter hnew horder hnoted.entered_eq hkeeps.toKeepsPlaces (fun d => (hkeeps.marked_iff d).mpr)
      (fun _ _ => hkeeps.refers_iff.mpr) fun _ _ hx => .inl (hkeeps.refers_iff.mp hx)⟩
  | handle _ _ hnoted =>
    have hkeeps : KeepsTies modules _ _ := keepsTies_handle htracked.covered.wellFormed hnoted
    exact ⟨order, h.of_same hkeeps.toSameTies hnoted.entered_eq (suffix_refl _)⟩
  | @unbound v l p p₁ branch _ _ hnoted =>
    have hkeeps : KeepsTies modules p p₁ := .of_met hnoted
    refine ⟨order, h.of_same (hkeeps.toSameTies.trans (.reportName ..)) ?_ (suffix_refl _)⟩
    exact (reportName_alike p₁ branch _ v.id).entered_eq.trans hnoted.entered_eq
  | @circular v l p p₁ branch e husage _ he hnoted =>
    refine ⟨order, h.circular htracked hfaithful.bound (hfaithful.follows v mem_cons_self) husage he
      (ties_circular husage hnoted branch _) ?_⟩
    exact (foldl_markCircular_marks ..).entered_eq.trans hnoted.entered_eq
  | @settled v l p p₁ e husage _ hoff hold hnoted hpasses =>
    have hties : Ties modules p (p₁.tie v.id e) v.id e [] := ties_settled husage hnoted
    exact ⟨order, h.settled (hfaithful.follows v mem_cons_self) husage
      (htracked.unbound hfaithful.bound husage) hoff hold hpasses hties hnoted.entered_eq⟩
  | @follow v l p p₁ p₂ p' e husage _ _ hnew hnoted haround hopen =>
    have hties : Ties modules p p' v.id e [] := ties_follow husage hnoted haround hopen
    have hunbound := htracked.unbound hfaithful.bound husage
    have hv := hfaithful.follows v mem_cons_self
    obtain ⟨done, horder⟩ := h.opens_suffix
    refine ⟨_, h.enter hnew horder ?_ hties.toKeepsPlaces (fun d hd => (hties.marked_iff d).mpr (.inl hd))
      (fun _ _ hold => (hties.refers_iff hunbound).mpr (.inl hold)) fun d x hx => ?_⟩
    · exact hopen.entered_eq.trans (congrArg (e :: ·) (haround.entered_eq.trans hnoted.entered_eq))
    · refine ((hties.refers_iff hunbound).mp hx).imp_right (And.imp_left fun hd => ?_)
      exact hv.subset_opens (hv.enclosing_mem_chain husage hd)

end Worklist

namespace ModuleSet.Parsed

open Config

variable {set : ModuleSet}

theorem start_ranked (hset : set.Parsed) : (start set).worklist.Ranked set.PassedOver [] := by
  have hnoted := (start_noted set).forget
  refine ⟨.nil, ?_, fun d => ?_, fun d e hde => absurd hde (hset.start_not_refers d e)⟩
  · change WalkAction.opens (start set).agenda <:+ []
    rw [start, ← append_nil (WalkAction.visitAll _ _), WalkAction.opens_visitAll]
    exact suffix_refl _
  · rw [show (start set).worklist.progress.entered = [] from hnoted.entered_eq]

theorem exists_ranked (hset : set.Parsed) {m : Config} (hm : Leads (start set) m) :
    ∃ order, m.worklist.Ranked set.PassedOver order := by
  refine (worklist_induction hset (P := fun o => o.Faithful set.modules ∧
    ∃ order, o.Ranked set.PassedOver order) ⟨hset.start_faithful, [], hset.start_ranked⟩ ?_ hm).2
  rintro o o' htracked ⟨hfaithful, hranked⟩ hstep
  exact ⟨hstep.faithful htracked hfaithful, hstep.ranked htracked hfaithful hranked⟩

/-- Every cycle of unmarked definitions has a reference that the walk passed over, and a
    nested definition that leads to it. -/
theorem exists_passedOver_of_cycle (hset : set.Parsed) {t : PairTree} (ht : (Progress.run set).tree = t)
    {d : PairId} (hd : TransGen t.RefersUnmarked d d) :
    ∃ x y, set.PassedOver x y ∧ (t.RefersUnmarked x y ∧ ReflTransGen t.RefersUnmarked d x ∧
        ReflTransGen t.RefersUnmarked y d) ∧
      ∃ n, t.Nested n ∧ ReflTransGen t.Refers n x := by
  subst ht
  obtain ⟨order, hranked⟩ := hset.exists_ranked (start_leads_run set)
  by_contra hnone
  -- Otherwise all of the cycle goes back in the order.
  refine lt_irrefl _ (lt_of_transGen (r := (order.idxOf ·)) (fun x y hxy => ?_) (transGen_between hd .refl))
  refine idxOf_lt_of_sublist hranked.nodup ?_
  rcases hranked.refers x y hxy.1.1 with ⟨hpassed, hnested⟩ | hmarked | hback
  · exact absurd ⟨x, y, hpassed, hxy, hnested⟩ hnone
  · exact absurd hmarked.1 hxy.1.2.1
  · exact hback

end ModuleSet.Parsed

namespace Session

/-- The references between definitions that are not marked as circular have no cycle
    just if none of those that the walk passed over is on one. Every cycle that there is
    can be reached from a nested definition, so a unit without these has none. -/
theorem unmarked_references_acyclic_iff {limit : Option Nat} {sources : List Source}
    {parsed resolved : Session} (hparse : (start limit).parseAll sources = .ok parsed)
    (hresolve : parsed.resolve = .ok resolved) :
    let t := resolved.set.tree
    ((∀ d, ¬ Relation.TransGen t.RefersUnmarked d d) ↔ ∀ d e, parsed.set.PassedOver d e → t.RefersUnmarked d e →
        ¬ Relation.ReflTransGen t.RefersUnmarked e d) ∧
      ∀ d, Relation.TransGen t.RefersUnmarked d d → ∃ n, t.Nested n ∧ Relation.ReflTransGen t.Refers n d := by
  have hparsed := parsed_of_start hparse
  have htree := run_tree_eq hresolve
  refine ⟨⟨fun hacyclic d e _ hde hed => hacyclic d (.head' hde hed), fun hpassed d hd => ?_⟩,
    fun d hd => ?_⟩
  · obtain ⟨x, y, hxy, ⟨hrefers, hdx, hyd⟩, -⟩ := hparsed.exists_passedOver_of_cycle htree hd
    exact hpassed x y hxy hrefers (hyd.trans hdx)
  · obtain ⟨x, y, -, ⟨hrefers, -, hyd⟩, n, hnested, hnx⟩ := hparsed.exists_passedOver_of_cycle htree hd
    refine ⟨n, hnested, (hnx.tail hrefers.1).trans ?_⟩
    exact Relation.ReflTransGen.mono (fun _ _ h => h.1) _ _ hyd

/-- Two definitions that refer to each other, and none in another. -/
def mutualSource : Source := ⟨"a.pjson", .json, "!$a:\n    $b\n!$b:\n    $a\n".toList⟩

theorem mutualSource_unmarked_references_acyclic : ∃ parsed resolved,
    (start none).parseAll [mutualSource] = .ok parsed ∧ parsed.resolve = .ok resolved ∧
      resolved.set.tree.Marked 1 ∧ resolved.set.tree.Marked 3 ∧
      ∀ d, ¬ Relation.TransGen resolved.set.tree.RefersUnmarked d d := by
  obtain ⟨parsed, resolved, hparse, hresolve, hcheck⟩ := exists_confirmed
    (show confirms none [mutualSource] (fun _ resolved => (resolved.set.tree.Marked 1 ∧
      resolved.set.tree.Marked 3) ∧ ∀ d ∈ List.range resolved.set.tree.size, ¬ resolved.set.tree.Nested d) =
        true by decide +kernel)
  obtain ⟨hmarked, hnested⟩ := hcheck
  refine ⟨parsed, resolved, hparse, hresolve, hmarked.1, hmarked.2, fun d hd => ?_⟩
  obtain ⟨n, hn, -⟩ := (unmarked_references_acyclic_iff hparse hresolve).2 d hd
  exact hnested n (List.mem_range.mpr (PairTree.lt_size_of_definition hn.1)) hn

/-- A definition `b` whose usage of `i1` leads, through a definition nested in that, to
    `i2`, which refers to `b`. -/
def nestedSource : Source where
  name := "a.pjson"
  format := .json
  text := "!$b:\n    $i1\n    $i2\n!$i1:\n    !$x:\n        $i2\n!$i2:\n    $b\n".toList

/-- The nested definition starts a new chain, on which `b` is not, though it is open. So
    `b` and `i2` refer to each other, and neither is marked. -/
theorem nestedSource_unmarked_references_cyclic : ∃ parsed resolved,
    (start none).parseAll [nestedSource] = .ok parsed ∧ parsed.resolve = .ok resolved ∧
      resolved.collection.entries = [] ∧ Relation.TransGen resolved.set.tree.RefersUnmarked 1 1 := by
  obtain ⟨parsed, resolved, hparse, hresolve, hcheck⟩ := exists_confirmed
    (show confirms none [nestedSource] (fun _ resolved => resolved.collection.entries = [] ∧
      (¬ resolved.set.tree.Marked 1 ∧ ¬ resolved.set.tree.Marked 7) ∧
      (resolved.set.tree.enclosingDefinition? 3 = some 1 ∧ resolved.set.tree.kind 3 = .aliasUsage (some 7)) ∧
      resolved.set.tree.enclosingDefinition? 8 = some 7 ∧
        resolved.set.tree.kind 8 = .aliasUsage (some 1)) = true by decide +kernel)
  obtain ⟨hentries, ⟨hb, hi⟩, hto, hback⟩ := hcheck
  exact ⟨parsed, resolved, hparse, hresolve, hentries,
    .tail (.single ⟨⟨3, hto⟩, hb, hi⟩) ⟨⟨8, hback⟩, hi, hb⟩⟩

end Session

end PairMarkup
