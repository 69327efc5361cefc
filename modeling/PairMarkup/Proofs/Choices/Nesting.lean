import PairMarkup.Builder
import PairMarkup.Proofs.Choices.Nodes
import PairMarkup.Proofs.Tree.Parsed

namespace PairMarkup

open List Option ChoiceTree

/-- The choices that a document keeps. -/
def Kind.choices? : Kind → Option ChoiceTree
  | document choices _ => some choices
  | _ => none

theorem Kind.isDocument_eq_isSome (kind : Kind) : kind.isDocument = kind.choices?.isSome := by
  cases kind <;> rfl

variable {kind : Kind}

theorem Kind.exists_choices (h : kind.isDocument) : ∃ choices, kind.choices? = some choices := by
  rw [isDocument_eq_isSome] at h
  exact isSome_iff_exists.mp h

theorem Kind.choices?_eq_some {choices : ChoiceTree} (h : kind.choices? = some choices) :
    ∃ implicit, kind = .document choices implicit := by
  cases kind with
  | document choices' implicit =>
    cases h
    exact ⟨implicit, rfl⟩
  | _ => cases h

namespace PairTree

variable {t t' : PairTree} {doc c child parent : PairId} {above : Option PairId} {choices : ChoiceTree}

/-- Whether the alternatives of a choice are written below the pair. -/
def offers (t : PairTree) (id : PairId) : Bool := (t.get id).delimiter.isChoice

def startOf (t : PairTree) (id : PairId) : Nat := (t.get id).span.start.offset

/-- The pair is a choice, `doc` is the document right around it, and `above` is the innermost choice around
    it below the document, if there is one. -/
def NestsIn (t : PairTree) (doc c : PairId) (above : Option PairId) : Prop :=
  t.offers c = true ∧ (t.kind doc).isDocument = true ∧ ∃ inner outer, t.ancestors c = inner ++ doc :: outer ∧
    (∀ a ∈ inner, (t.kind a).isDocument = false) ∧ above = inner.find? t.offers

/-- The document keeps its choices as they are nested: every choice in the document is there once, below
    the one that is right around it, and choices below the same one are in the order of the text. -/
structure HoldsChoices (t : PairTree) (doc : PairId) (choices : ChoiceTree) : Prop where
  root_eq : choices.choice = none
  mem_edges_iff : ∀ above choice, (above, choice) ∈ choices.edges ↔ ∃ c, choice = some c ∧ t.NestsIn doc c above
  nodup : choices.nodes.Nodup
  inOrder : choices.edges.Pairwise fun a b => a.1 = b.1 → ∀ c ∈ a.2, ∀ c' ∈ b.2, t.startOf c < t.startOf c'

theorem WellFormed.nestsIn_iff (hwf : t.WellFormed) : t.NestsIn doc c above ↔
    t.offers c ∧ t.enclosingDocument? c = some doc ∧
      above = ((t.ancestors c).takeWhile (· ≠ doc)).find? t.offers := by
  -- no pair is met twice on the way up, so the first document ends the way to it
  have htake : ∀ {inner outer : List PairId}, t.ancestors c = inner ++ doc :: outer →
      (t.ancestors c).takeWhile (· ≠ doc) = inner := by
    intro inner outer hsplit
    have hnodup := hwf.ancestors_nodup c
    rw [hsplit] at hnodup ⊢
    have hinner : ∀ a ∈ inner, decide (a ≠ doc) := by
      intro a ha
      have hne := (nodup_append.mp hnodup).2.2 a ha doc mem_cons_self
      simpa using hne
    rw [takeWhile_append_of_pos hinner, takeWhile_cons_of_neg (by simp), append_nil]
  constructor
  · rintro ⟨hoffers, hdoc, inner, outer, hsplit, hinner, rfl⟩
    refine ⟨hoffers, ?_, by rw [htake hsplit]⟩
    rw [enclosingDocument?, hsplit]
    exact find?_eq_some_iff_append.mpr ⟨hdoc, inner, outer, rfl, fun a ha => by simp [hinner a ha]⟩
  · rintro ⟨hoffers, hdoc, habove⟩
    obtain ⟨hdoc, inner, outer, hsplit, hinner⟩ := find?_eq_some_iff_append.mp hdoc
    refine ⟨hoffers, hdoc, inner, outer, hsplit, fun a ha => by simpa using hinner a ha, ?_⟩
    rw [habove, htake hsplit]

theorem WellFormed.nestsIn_unique (hwf : t.WellFormed) {doc' : PairId} {above' : Option PairId}
    (h : t.NestsIn doc c above) (h' : t.NestsIn doc' c above') : doc = doc' ∧ above = above' := by
  obtain ⟨-, hdoc, rfl⟩ := hwf.nestsIn_iff.mp h
  obtain ⟨-, hdoc', rfl⟩ := hwf.nestsIn_iff.mp h'
  obtain rfl := some.inj (hdoc.symm.trans hdoc')
  exact ⟨rfl, rfl⟩

theorem NestsIn.mem_ancestors (h : t.NestsIn doc c above) : doc ∈ t.ancestors c := by
  obtain ⟨-, -, inner, outer, hsplit, -, -⟩ := h
  rw [hsplit]
  exact mem_append_right _ mem_cons_self

theorem NestsIn.lt_size (h : t.NestsIn doc c above) : c < t.size := by
  refine Nat.lt_of_not_le fun hle => ?_
  have hoffers := h.1
  rw [offers, get_eq_default hle] at hoffers
  cases hoffers

theorem NestsIn.of_same (h : t.NestsIn doc c above) (hancestors : t'.ancestors c = t.ancestors c)
    (hself : t'.offers c = t.offers c) (hup : ∀ a ∈ t.ancestors c,
      (t'.kind a).isDocument = (t.kind a).isDocument ∧ t'.offers a = t.offers a) : t'.NestsIn doc c above := by
  obtain ⟨hoffers, hdoc, inner, outer, hsplit, hinner, rfl⟩ := h
  have hmem : ∀ a, a ∈ inner ++ doc :: outer → a ∈ t.ancestors c := fun a ha => hsplit ▸ ha
  refine ⟨hself.trans hoffers, ?_, inner, outer, hancestors.trans hsplit, fun a ha => ?_, ?_⟩
  · exact (hup doc (hmem doc (by simp))).1.trans hdoc
  · exact (hup a (hmem a (by simp [ha]))).1.trans (hinner a ha)
  · rw [← head?_filter, ← head?_filter]
    congr 1
    exact filter_congr fun a ha => (hup a (hmem a (by simp [ha]))).2.symm

/-- The chain of parents of a pair depends on the parents along the chain alone. -/
theorem WellFormed.ancestors_eq_of_parents (hwf : t.WellFormed) (hwf' : t'.WellFormed) {P : PairId → Prop}
    (hparent : ∀ x, P x → t'.parent? x = t.parent? x) (hup : ∀ x p, P x → t.parent? x = some p → P p)
    {x : PairId} (hx : P x) : t'.ancestors x = t.ancestors x := by
  induction x using hwf.induction_up with
  | root x hnone => rw [ancestors_eq_nil hnone, ancestors_eq_nil ((hparent x hx).trans hnone)]
  | child x p hp ih =>
    rw [hwf.ancestors_eq_cons hp, hwf'.ancestors_eq_cons ((hparent x hx).trans hp), ih (hup x p hx hp)]

theorem holdsChoices_empty (h : ∀ c above, ¬ t.NestsIn doc c above) : t.HoldsChoices doc .empty where
  root_eq := rfl
  mem_edges_iff above choice := by
    constructor
    · intro hmem
      cases hmem
    · rintro ⟨c, -, hnests⟩
      exact absurd hnests (h c above)
  nodup := nodup_singleton _
  inOrder := .nil

section

variable (h : t.HoldsChoices doc choices)

include h

theorem HoldsChoices.mem_kept_iff (hwf : t.WellFormed) {choice : Option PairId} : choice ∈ choices.edges.map Prod.snd ↔
      ∃ c, choice = some c ∧ t.offers c ∧ t.enclosingDocument? c = some doc := by
  rw [List.mem_map]
  constructor
  · rintro ⟨⟨above, choice⟩, hedge, rfl⟩
    obtain ⟨c, rfl, hnests⟩ := (h.mem_edges_iff above choice).mp hedge
    obtain ⟨hoffers, hdoc, -⟩ := hwf.nestsIn_iff.mp hnests
    exact ⟨c, rfl, hoffers, hdoc⟩
  · rintro ⟨c, rfl, hoffers, hdoc⟩
    exact ⟨_, (h.mem_edges_iff _ (some c)).mpr ⟨c, rfl, hwf.nestsIn_iff.mpr ⟨hoffers, hdoc, rfl⟩⟩, rfl⟩

theorem HoldsChoices.mem_nodes_iff (hwf : t.WellFormed) :
    some c ∈ choices.nodes ↔ t.offers c ∧ t.enclosingDocument? c = some doc := by
  rw [nodes, h.root_eq, mem_cons, h.mem_kept_iff hwf]
  simp

/-- The order lasts as long as the choices begin where they did. -/
theorem HoldsChoices.inOrder_of_start (hstart : ∀ c a, t.NestsIn doc c a → t'.startOf c = t.startOf c) :
    choices.edges.Pairwise fun a b => a.1 = b.1 → ∀ c ∈ a.2, ∀ c' ∈ b.2, t'.startOf c < t'.startOf c' := by
  have hsame : ∀ edge ∈ choices.edges, ∀ c ∈ edge.2, t'.startOf c = t.startOf c := by
    intro edge hedge c hc
    obtain ⟨d, hd, hnests⟩ := (h.mem_edges_iff edge.1 edge.2).mp hedge
    obtain rfl : c = d := some.inj (hc.symm.trans hd)
    exact hstart c _ hnests
  refine h.inOrder.imp_of_mem fun {a b} ha hb hab habove c hc c' hc' => ?_
  rw [hsame a ha c hc, hsame b hb c' hc']
  exact hab habove c hc c' hc'

theorem HoldsChoices.congr (hnests : ∀ c a, t'.NestsIn doc c a ↔ t.NestsIn doc c a)
    (hstart : ∀ c a, t.NestsIn doc c a → t'.startOf c = t.startOf c) : t'.HoldsChoices doc choices where
  root_eq := h.root_eq
  mem_edges_iff above choice := by
    rw [h.mem_edges_iff]
    simp only [hnests]
  nodup := h.nodup
  inOrder := h.inOrder_of_start hstart

/-- A choice that comes last is added below the one around it. -/
theorem HoldsChoices.insert (henclosing : above ∈ choices.nodes) (hfresh : ∀ a, ¬ t.NestsIn doc child a)
    (hnests : ∀ c a, t'.NestsIn doc c a ↔ c = child ∧ a = above ∨ t.NestsIn doc c a)
    (hstart : ∀ c a, t.NestsIn doc c a → t'.startOf c = t.startOf c)
    (hlast : ∀ c a, t.NestsIn doc c a → t.startOf c < t'.startOf child) :
    t'.HoldsChoices doc (choices.insert above child) := by
  obtain ⟨hroot, hinserts⟩ := insert_inserts h.root_eq h.nodup henclosing child
  refine ⟨hroot, fun a choice => ?_, ?_, ?_⟩
  · rw [hinserts.mem_iff, h.mem_edges_iff]
    simp only [hnests, Prod.mk.injEq]
    constructor
    · rintro (⟨rfl, rfl⟩ | ⟨c, rfl, hc⟩)
      · exact ⟨child, rfl, .inl ⟨rfl, rfl⟩⟩
      · exact ⟨c, rfl, .inr hc⟩
    · rintro ⟨c, rfl, ⟨rfl, rfl⟩ | hc⟩
      · exact .inl ⟨rfl, rfl⟩
      · exact .inr ⟨c, rfl, hc⟩
  · have hnew : some child ∉ choices.nodes := by
      rw [nodes, h.root_eq, mem_cons, not_or]
      refine ⟨some_ne_none child, fun hmem => ?_⟩
      obtain ⟨⟨a, choice⟩, hedge, rfl⟩ := mem_map.mp hmem
      obtain ⟨c, hc, hnests⟩ := (h.mem_edges_iff a _).mp hedge
      cases hc
      exact hfresh a hnests
    have hperm := (hinserts.perm.map Prod.snd).cons none
    rw [nodes, hroot, hperm.nodup_iff, map_cons, (List.Perm.swap _ _ _).nodup_iff, nodup_cons]
    have hnodes : choices.nodes = none :: choices.edges.map Prod.snd := by rw [nodes, h.root_eq]
    rw [← hnodes]
    exact ⟨hnew, h.nodup⟩
  · refine hinserts.pairwise (R := fun a b => ∀ c ∈ a, ∀ c' ∈ b, t'.startOf c < t'.startOf c')
      (h.inOrder_of_start hstart) fun edge hedge c hc c' hc' => ?_
    obtain ⟨d, hd, hold⟩ := (h.mem_edges_iff edge.1 edge.2).mp hedge
    obtain rfl : c = d := some.inj (hc.symm.trans hd)
    obtain rfl : child = c' := some.inj hc'
    rw [hstart c _ hold]
    exact hlast c _ hold

end

end PairTree

end PairMarkup
