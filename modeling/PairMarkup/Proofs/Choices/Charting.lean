import PairMarkup.Proofs.Choices.Nesting

namespace PairMarkup

open List Kind

namespace Pair

/-- What the choices of documents depend on. -/
structure Mark where
  choices : Option ChoiceTree
  offers : Bool
  start : Nat
  parent : Option PairId
  isChoice : Bool
  isComment : Bool

def mark (pair : Pair) : Mark where
  choices := pair.kind.choices?
  offers := pair.delimiter.isChoice
  start := pair.span.start.offset
  parent := pair.parent
  isChoice := pair.isChoice
  isComment := pair.kind.isComment

/-- Nothing but the choices of a document changes with them. -/
theorem mapChoices_eq (f : ChoiceTree → ChoiceTree) (pair : Pair) :
    ∃ kind, pair.mapChoices f = { pair with kind } ∧ kind.choices? = pair.kind.choices?.map f ∧
      kind.isComment = pair.kind.isComment := by
  unfold mapChoices
  split
  · rename_i hkind
    exact ⟨_, rfl, by rw [hkind]; rfl, by rw [hkind]; rfl⟩
  · rename_i hkind
    refine ⟨pair.kind, rfl, ?_, rfl⟩
    cases hpair : pair.kind <;> first | rfl | exact absurd hpair (hkind _ _)

end Pair

variable {p : PairId}

namespace PairTree

open Builder

variable {t t' t'' : PairTree} {x doc c child parent : PairId} {above : Option PairId} {choices : ChoiceTree}
  {pair : Pair}

/-- Comments may stand below any pair. Everything else stands below no comment, and below a choice it is
    known for one of its alternatives. -/
def Admits (t : PairTree) (p x : PairId) : Prop := (t.kind x).isComment = true ∨
    (t.kind p).isComment = false ∧ (t.offers p = true → (t.get x).isChoice = true)

/-- All documents keep their choices as they are nested, and all pairs are admitted where they stand. -/
structure Charted (t : PairTree) : Prop where
  holds : ∀ doc choices, (t.kind doc).choices? = some choices → t.HoldsChoices doc choices
  admits : ∀ x p, t.parent? x = some p → t.Admits p x

/-- Pairs that were there keep their marks. -/
structure KeepsMarks (t t' : PairTree) : Prop where
  size_le : t.size ≤ t'.size
  mark_eq : ∀ x, x < t.size → (t'.get x).mark = (t.get x).mark

/-- In addition, new pairs are no choices, and new documents have none. -/
structure Retains (t t' : PairTree) : Prop extends KeepsMarks t t' where
  offers_eq : ∀ x, t.size ≤ x → t'.offers x = false
  choices_eq : ∀ x, t.size ≤ x → ∀ choices, (t'.kind x).choices? = some choices → choices = .empty
  admits : ∀ x p, t.size ≤ x → t'.parent? x = some p → t'.Admits p x

theorem offers_eq_false (h : t.size ≤ x) : t.offers x = false := by
  rw [offers, get_eq_default h]
  rfl

/-- Whether a pair is admitted depends on it and on the pair above it alone. -/
theorem Admits.of_same (h : t.Admits p x) (hcomment : (t'.kind x).isComment = (t.kind x).isComment)
    (hchoice : (t'.get x).isChoice = (t.get x).isChoice) (hup : (t.kind p).isComment = false →
      (t'.kind p).isComment = false ∧ t'.offers p = t.offers p) : t'.Admits p x := by
  refine h.imp hcomment.trans fun ⟨hp, hx⟩ => ?_
  obtain ⟨hp', hoffers⟩ := hup hp
  rw [hoffers, hchoice]
  exact ⟨hp', hx⟩

namespace KeepsMarks

section

variable (h : KeepsMarks t t') (hx : x < t.size)

include h hx

theorem offers_old : t'.offers x = t.offers x := (congrArg Pair.Mark.offers (h.mark_eq x hx) :)

theorem start_old : t'.startOf x = t.startOf x := (congrArg Pair.Mark.start (h.mark_eq x hx) :)

theorem parent_old : t'.parent? x = t.parent? x := (congrArg Pair.Mark.parent (h.mark_eq x hx) :)

theorem isChoice_old : (t'.get x).isChoice = (t.get x).isChoice := (congrArg Pair.Mark.isChoice (h.mark_eq x hx) :)

theorem isComment_old : (t'.kind x).isComment = (t.kind x).isComment :=
  (congrArg Pair.Mark.isComment (h.mark_eq x hx) :)

theorem admits_old (hadmits : t.Admits p x) : t'.Admits p x := by
  refine hadmits.of_same (h.isComment_old hx) (h.isChoice_old hx) fun hp => ?_
  have hlt : p < t.size := lt_size_of_kind (by simp [hp])
  exact ⟨(h.isComment_old hlt).trans hp, h.offers_old hlt⟩

theorem choices_old : (t'.kind x).choices? = (t.kind x).choices? := (congrArg Pair.Mark.choices (h.mark_eq x hx) :)

end

theorem nestsIn_iff (h : KeepsMarks t t') (hwf : t.WellFormed) (hwf' : t'.WellFormed) (hc : c < t.size) :
    t'.NestsIn doc c above ↔ t.NestsIn doc c above := by
  have hancestors : t'.ancestors c = t.ancestors c :=
    hwf.ancestors_eq_of_parents hwf' (P := (· < t.size)) (fun x hx => h.parent_old hx)
      (fun x p _ hp => hwf.parent_lt_size hp) hc
  have hup : ∀ a ∈ t.ancestors c, (t'.kind a).isDocument = (t.kind a).isDocument ∧ t'.offers a = t.offers a := by
    intro a ha
    have hlt := hwf.ancestor_lt_size ha
    rw [isDocument_eq_isSome, h.choices_old hlt, ← isDocument_eq_isSome]
    exact ⟨rfl, h.offers_old hlt⟩
  constructor
  · intro hnests
    refine hnests.of_same hancestors.symm (h.offers_old hc).symm fun a ha => ?_
    obtain ⟨hdocument, hoffers⟩ := hup a (hancestors ▸ ha)
    exact ⟨hdocument.symm, hoffers.symm⟩
  · exact fun hnests => hnests.of_same hancestors (h.offers_old hc) hup

theorem charted (h : KeepsMarks t t') (hwf : t.WellFormed) (hwf' : t'.WellFormed) (hcharted : t.Charted)
    (hnests : ∀ c, t.size ≤ c → ∀ doc a, ¬ t'.NestsIn doc c a)
    (hchoices : ∀ x, t.size ≤ x → ∀ choices, (t'.kind x).choices? = some choices → choices = .empty)
    (hadmits : ∀ x p, t.size ≤ x → t'.parent? x = some p → t'.Admits p x) :
    t'.Charted where
  holds doc choices hdoc := by
    have hiff : ∀ c a, t'.NestsIn doc c a ↔ t.NestsIn doc c a := by
      intro c a
      rcases lt_or_ge c t.size with hold | hnew
      · exact h.nestsIn_iff hwf hwf' hold
      · exact iff_of_false (hnests c hnew doc a) fun hold => not_lt.mpr hnew hold.lt_size
    rcases lt_or_ge doc t.size with hold | hnew
    · rw [h.choices_old hold] at hdoc
      exact (hcharted.holds doc choices hdoc).congr hiff fun c a hc => h.start_old hc.lt_size
    · rw [hchoices doc hnew choices hdoc]
      refine holdsChoices_empty fun c a hc => ?_
      exact not_lt.mpr hnew (hwf.ancestor_lt_size ((hiff c a).mp hc).mem_ancestors)
  admits x p hparent := by
    rcases lt_or_ge x t.size with hold | hnew
    · rw [h.parent_old hold] at hparent
      exact h.admits_old hold (hcharted.admits x p hparent)
    · exact hadmits x p hnew hparent

end KeepsMarks

namespace Retains

theorem offers_all (h : Retains t t') (x : PairId) : t'.offers x = t.offers x := by
  rcases lt_or_ge x t.size with hold | hnew
  · exact h.offers_old hold
  · rw [h.offers_eq x hnew, offers_eq_false hnew]

theorem of_marks (hsize : t'.size = t.size) (hmarks : ∀ x, (t'.get x).mark = (t.get x).mark) : Retains t t' where
  size_le := hsize.symm.le
  mark_eq x _ := hmarks x
  offers_eq x hx := by
    rw [offers, get_eq_default (hsize ▸ hx)]
    rfl
  choices_eq x hx choices hchoices := by
    rw [kind, get_eq_default (hsize ▸ hx)] at hchoices
    cases hchoices
  admits x p hx hparent := by
    rw [parent?, get_eq_default (hsize ▸ hx)] at hparent
    cases hparent

theorem refl (t : PairTree) : Retains t t := of_marks rfl fun _ => rfl

theorem modify (t : PairTree) (id : PairId) {f : Pair → Pair} (hf : ∀ pair, (f pair).mark = pair.mark) :
    Retains t (t.modify id f) :=
  of_marks (size_modify ..) fun x => modify_eq_of_keeps Pair.mark t id x hf

theorem trans (h : Retains t t') (h' : Retains t' t'') : Retains t t'' where
  size_le := h.size_le.trans h'.size_le
  mark_eq x hx := (h'.mark_eq x (hx.trans_le h.size_le)).trans (h.mark_eq x hx)
  offers_eq x hx := (h'.offers_all x).trans (h.offers_eq x hx)
  choices_eq x hx choices hchoices := by
    rcases lt_or_ge x t'.size with hold | hnew
    · exact h.choices_eq x hx choices ((h'.choices_old hold).symm.trans hchoices)
    · exact h'.choices_eq x hnew choices hchoices
  admits x p hx hparent := by
    rcases lt_or_ge x t'.size with hold | hnew
    · rw [h'.parent_old hold] at hparent
      exact h'.admits_old hold (h.admits x p hx hparent)
    · exact h'.admits x p hnew hparent

end Retains

theorem Charted.retains (h : t.Charted) (hretains : Retains t t') (hwf : t.WellFormed)
    (hwf' : t'.WellFormed) : t'.Charted := by
  refine hretains.charted hwf hwf' h (fun c hc doc a hnests => ?_) hretains.choices_eq hretains.admits
  cases (hretains.offers_eq c hc).symm.trans hnests.1

theorem add_keepsMarks (t : PairTree) (pair : Pair) : KeepsMarks t (t.add pair).2 where
  size_le := by
    rw [size_add]
    exact Nat.le_succ _
  mark_eq x hx := by rw [get_add_of_ne t pair hx.ne]

theorem parent?_add_eq_none (hparent : pair.parent = none) (hx : t.size ≤ x) : (t.add pair).2.parent? x = none := by
  rw [parent?, get_add]
  split
  · exact hparent
  · rw [get_eq_default hx]
    rfl

theorem choices?_add (hpair : ∀ choices, pair.kind.choices? = some choices → choices = .empty)
    (hx : t.size ≤ x) (h : ((t.add pair).2.kind x).choices? = some choices) : choices = .empty := by
  rw [kind, get_add] at h
  split at h
  · exact hpair choices h
  · rw [get_eq_default hx] at h
    cases h

theorem Charted.add (h : t.Charted) (hwf : t.WellFormed) (hparent : pair.parent = none)
    (hheld : pair.held = []) (hpair : ∀ choices, pair.kind.choices? = some choices → choices = .empty) :
    (t.add pair).2.Charted := by
  have hnone : ∀ x, t.size ≤ x → (t.add pair).2.parent? x = none := fun x => parent?_add_eq_none hparent
  refine (add_keepsMarks t pair).charted hwf (hwf.add hparent hheld) h (fun c hc doc a hnests => ?_)
    (fun x hx choices => choices?_add hpair hx) fun x p hx hup => ?_
  · have hmem := hnests.mem_ancestors
    rw [ancestors_eq_nil (hnone c hc)] at hmem
    cases hmem
  · cases (hnone x hx).symm.trans hup

theorem add_retains (hparent : pair.parent = none) (hoffers : pair.delimiter.isChoice = false)
    (hpair : ∀ choices, pair.kind.choices? = some choices → choices = .empty) : Retains t (t.add pair).2 where
  toKeepsMarks := add_keepsMarks t pair
  offers_eq x hx := by
    rw [offers, get_add]
    split
    · exact hoffers
    · exact offers_eq_false hx
  choices_eq x hx choices := choices?_add hpair hx
  admits x p hx hup := by cases (parent?_add_eq_none hparent hx).symm.trans hup

section

variable (h : t.append parent child = .ok t')

include h

theorem mark_append (hx : x ≠ child) : (t'.get x).mark = (t.get x).mark := by
  obtain ⟨isChoice, rfl⟩ := append_eq_ok h
  refine (modify_eq_of_keeps Pair.mark _ parent x ?_).trans ?_
  · exact fun _ => rfl
  · rw [get_modify_of_ne hx]

theorem offers_append (x : PairId) : t'.offers x = t.offers x :=
  append_eq_of_keeps (fun pair => pair.delimiter.isChoice) h x fun _ _ _ _ => rfl

theorem startOf_append (x : PairId) : t'.startOf x = t.startOf x :=
  append_eq_of_keeps (fun pair => pair.span.start.offset) h x fun _ _ _ _ => rfl

theorem kind_append (x : PairId) : t'.kind x = t.kind x := append_eq_of_keeps Pair.kind h x fun _ _ _ _ => rfl

theorem parent?_append_self (hchild : child < t.size) : t'.parent? child = some parent := by
  obtain ⟨isChoice, rfl⟩ := append_eq_ok h
  refine (modify_eq_of_keeps Pair.parent _ parent child ?_).trans ?_
  · exact fun _ => rfl
  · rw [get_modify_self hchild]

theorem admits_append (hchild : child < t.size) : t'.Admits parent child := by
  rw [Admits, kind_append h, kind_append h, offers_append h]
  simp only [append] at h
  split at h
  · cases h
  · rename_i hwelcome
    split at h
    · cases h
    · cases h
      have hself : ∀ isChoice, ((((t.modify child fun p => { p with parent := some parent, isChoice }).modify parent
          fun p => { p with children := p.children ++ [child] }).get child).isChoice) = isChoice := by
        intro isChoice
        refine (modify_eq_of_keeps Pair.isChoice _ parent child ?_).trans ?_
        · exact fun _ => rfl
        · rw [get_modify_self hchild]
      rw [hself]
      cases hcomment : (t.kind child).isComment with
      | true => exact .inl rfl
      | false =>
        have hcomment' : (t.get child).kind.isComment = false := hcomment
        refine .inr ⟨?_, fun hoffers => ?_⟩
        · simp only [hcomment', Bool.not_false, Bool.true_and, Bool.not_eq_true', Bool.not_eq_false,
            acceptsChildren, Bool.and_eq_true] at hwelcome
          simpa [kind] using hwelcome.1.1.1
        · have hdelimiter : (t.get parent).delimiter.isChoice := hoffers
          simp [hdelimiter, hcomment']

end

theorem add_append_retains (hparent : pair.parent = none) (hoffers : pair.delimiter.isChoice = false)
    (hpair : ∀ choices, pair.kind.choices? = some choices → choices = .empty)
    (h : (t.add pair).2.append parent t.size = .ok t') : Retains t t' := by
  have hadd := add_retains (t := t) hparent hoffers hpair
  refine ⟨⟨?_, fun x hx => ?_⟩, fun x hx => ?_, fun x hx choices hkind => ?_, fun x p hx hup => ?_⟩
  · rw [size_append h]
    exact hadd.size_le
  · rw [mark_append h hx.ne, hadd.mark_eq x hx]
  · rw [offers_append h, hadd.offers_eq x hx]
  · rw [kind_append h] at hkind
    exact hadd.choices_eq x hx choices hkind
  · by_cases hself : x = t.size
    · subst hself
      have hlt : t.size < (t.add pair).2.size := by
        rw [size_add]
        exact Nat.lt_succ_self _
      rw [parent?_append_self h hlt] at hup
      cases hup
      exact admits_append h hlt
    · rw [parent?_append h hself, parent?_add_eq_none hparent hx] at hup
      cases hup

/-- Above a pair of a lineage are the pairs that come behind it there. -/
theorem WellFormed.ancestors_eq_of_split (hwf : t.WellFormed) {before rest : List PairId} {x e : PairId}
    (hsplit : x :: t.ancestors x = before ++ e :: rest) : t.ancestors e = rest := by
  induction before generalizing x with
  | nil =>
    obtain ⟨rfl, rfl⟩ := List.cons.inj hsplit
    rfl
  | cons b before ih =>
    obtain ⟨-, hup⟩ := List.cons.inj hsplit
    cases hparent : t.parent? x with
    | none =>
      rw [ancestors_eq_nil hparent] at hup
      exact absurd hup.symm (by simp)
    | some p =>
      rw [hwf.ancestors_eq_cons hparent] at hup
      exact ih hup

/-- The choice right around the place of a pair is entered before the pair. -/
theorem HoldsChoices.enclosing_mem_nodes (h : t.HoldsChoices doc choices) (hwf : t.WellFormed)
    (hdoc : (t.kind doc).isDocument) {inner outer : List PairId}
    (hsplit : parent :: t.ancestors parent = inner ++ doc :: outer)
    (hinner : ∀ a ∈ inner, (t.kind a).isDocument = false) : inner.find? t.offers ∈ choices.nodes := by
  cases hfound : inner.find? t.offers with
  | none =>
    rw [ChoiceTree.nodes, h.root_eq]
    exact mem_cons_self
  | some e =>
    obtain ⟨hoffers, before, after, rfl, -⟩ := find?_eq_some_iff_append.mp hfound
    rw [append_assoc, cons_append] at hsplit
    have hup := hwf.ancestors_eq_of_split hsplit
    have hnests : t.NestsIn doc e (after.find? t.offers) :=
      ⟨hoffers, hdoc, after, outer, hup, fun a ha => hinner a (by simp [ha]), rfl⟩
    rw [ChoiceTree.nodes]
    refine mem_cons_of_mem _ (mem_map.mpr ⟨(after.find? t.offers, some e), ?_, rfl⟩)
    exact (h.mem_edges_iff _ _).mpr ⟨e, rfl, hnests⟩

/-- A pair without parent and content is put below another one. -/
structure Hung (parent child : PairId) (t t' : PairTree) : Prop where
  wellFormed : t.WellFormed
  wellFormed' : t'.WellFormed
  detached : t.Detached child
  ne : parent ≠ child
  append_eq : t.append parent child = .ok t'

namespace Hung

section

variable (h : Hung parent child t t')

include h

theorem ancestors_other (hx : x ≠ child) : t'.ancestors x = t.ancestors x := by
  refine h.wellFormed.ancestors_eq_of_parents h.wellFormed' (P := (· ≠ child)) ?_ ?_ hx
  · exact fun y hy => parent?_append h.append_eq hy
  · rintro y p - hp rfl
    have hheld := h.wellFormed.mem_held_iff.mpr hp
    rw [h.detached.held_eq] at hheld
    cases hheld

theorem ancestors_child : t'.ancestors child = parent :: t.ancestors parent := by
  rw [h.wellFormed'.ancestors_eq_cons (parent?_append_self h.append_eq h.detached.lt_size), h.ancestors_other h.ne]

theorem nestsIn_iff_of_ne (hc : c ≠ child) : t'.NestsIn doc c above ↔ t.NestsIn doc c above := by
  have hancestors := h.ancestors_other hc
  have hoffers := offers_append h.append_eq
  have hkind := kind_append h.append_eq
  constructor
  · intro hnests
    refine hnests.of_same hancestors.symm (hoffers c).symm fun a _ => ?_
    rw [hkind, hoffers]
    exact ⟨rfl, rfl⟩
  · intro hnests
    refine hnests.of_same hancestors (hoffers c) fun a _ => ?_
    rw [hkind, hoffers]
    exact ⟨rfl, rfl⟩

theorem not_nestsIn (doc : PairId) (above : Option PairId) : ¬ t.NestsIn doc child above := by
  intro hnests
  have hmem := hnests.mem_ancestors
  rw [ancestors_eq_nil h.detached.parent_eq] at hmem
  cases hmem

variable (hcharted : t.Charted)

include hcharted

theorem admits (hparent : t'.parent? x = some p) : t'.Admits p x := by
  by_cases hx : x = child
  · subst hx
    rw [parent?_append_self h.append_eq h.detached.lt_size] at hparent
    cases hparent
    exact admits_append h.append_eq h.detached.lt_size
  · have hmark := mark_append h.append_eq hx
    rw [parent?_append h.append_eq hx] at hparent
    refine (hcharted.admits x p hparent).of_same (congrArg Pair.Mark.isComment hmark :)
      (congrArg Pair.Mark.isChoice hmark :) fun hp => ?_
    rw [kind_append h.append_eq]
    exact ⟨hp, offers_append h.append_eq p⟩

/-- Documents around which nothing new is nested keep their choices. -/
theorem holds (hchoices : (t'.kind doc).choices? = some choices) (hnot : ∀ a, ¬ t'.NestsIn doc child a) :
    t'.HoldsChoices doc choices := by
  rw [kind_append h.append_eq] at hchoices
  refine (hcharted.holds doc choices hchoices).congr (fun c a => ?_) fun c a _ => startOf_append h.append_eq c
  by_cases hc : c = child
  · subst hc
    exact iff_of_false (hnot a) (h.not_nestsIn doc a)
  · exact h.nestsIn_iff_of_ne hc

/-- A pair that is no choice, or is in no document, may be put anywhere. -/
theorem charted (hnot : ∀ doc a, ¬ t'.NestsIn doc child a) : t'.Charted where
  holds doc _ hchoices := h.holds hcharted hchoices (hnot doc)
  admits _ _ := h.admits hcharted

/-- A choice is entered behind all others that are in the same document. -/
theorem holdsChoices_insert (hchoices : (t'.kind doc).choices? = some choices) (hnests : t'.NestsIn doc child above)
    (hlast : ∀ c a, t.NestsIn doc c a → t.startOf c < t.startOf child) :
    t'.HoldsChoices doc (choices.insert above child) := by
  rw [kind_append h.append_eq] at hchoices
  have hold := hcharted.holds doc choices hchoices
  have hself : ∀ a, t'.NestsIn doc child a ↔ a = above := fun a =>
    ⟨fun ha => (h.wellFormed'.nestsIn_unique ha hnests).2, fun ha => ha ▸ hnests⟩
  obtain ⟨-, hdoc, inner, outer, hsplit, hinner, hup⟩ := hnests
  rw [h.ancestors_child] at hsplit
  have hsame : t'.offers = t.offers := funext (offers_append h.append_eq)
  simp only [kind_append h.append_eq] at hdoc hinner
  have henclosing := hold.enclosing_mem_nodes h.wellFormed hdoc hsplit hinner
  rw [hsame] at hup
  rw [← hup] at henclosing
  refine hold.insert henclosing (h.not_nestsIn doc) (fun c a => ?_) (fun c a _ => startOf_append h.append_eq c) ?_
  · by_cases hc : c = child
    · subst hc
      simp [hself, h.not_nestsIn]
    · simp [hc, h.nestsIn_iff_of_ne hc]
  · intro c a hc
    rw [startOf_append h.append_eq]
    exact hlast c a hc

end

end Hung

/-- The choices of one document are changed. -/
structure Rechoiced (doc : PairId) (f : ChoiceTree → ChoiceTree) (t t' : PairTree) : Prop where
  parent_eq : ∀ x, t'.parent? x = t.parent? x
  held_eq : ∀ x, (t'.get x).held = (t.get x).held
  offers_eq : ∀ x, t'.offers x = t.offers x
  start_eq : ∀ x, t'.startOf x = t.startOf x
  isChoice_eq : ∀ x, (t'.get x).isChoice = (t.get x).isChoice
  isComment_eq : ∀ x, (t'.kind x).isComment = (t.kind x).isComment
  choices_eq : ∀ x, (t'.kind x).choices? = if x = doc then (t.kind x).choices?.map f else (t.kind x).choices?

theorem mapChoices_rechoiced (t : PairTree) (doc : PairId) (f : ChoiceTree → ChoiceTree) :
    Rechoiced doc f t (t.modify doc (Pair.mapChoices f)) := by
  have hkeep : ∀ {α : Type} (g : Pair → α), (∀ pair kind, kind.isComment = pair.kind.isComment →
      g { pair with kind } = g pair) → ∀ x, g ((t.modify doc (Pair.mapChoices f)).get x) = g (t.get x) := by
    intro α g hg x
    refine modify_eq_of_keeps g t doc x fun pair => ?_
    obtain ⟨kind, heq, -, hcomment⟩ := pair.mapChoices_eq f
    rw [heq, hg pair kind hcomment]
  refine ⟨?_, ?_, ?_, ?_, ?_, ?_, fun x => ?_⟩
  · exact hkeep Pair.parent fun _ _ _ => rfl
  · exact hkeep Pair.held fun _ _ _ => rfl
  · exact hkeep (fun pair => pair.delimiter.isChoice) fun _ _ _ => rfl
  · exact hkeep (fun pair => pair.span.start.offset) fun _ _ _ => rfl
  · exact hkeep Pair.isChoice fun _ _ _ => rfl
  · exact hkeep (fun pair => pair.kind.isComment) fun _ _ hcomment => hcomment
  · obtain ⟨kind, heq, hchoices, -⟩ := (t.get x).mapChoices_eq f
    rw [PairTree.kind, get_modify]
    by_cases hx : x = doc
    · rcases lt_or_ge x t.size with hlt | hge
      · rw [if_pos ⟨hx, hlt⟩, if_pos hx, heq]
        exact hchoices
      · rw [if_neg fun h => not_lt.mpr hge h.2, if_pos hx, PairTree.kind, get_eq_default hge]
        rfl
    · rw [if_neg fun h => hx h.1, if_neg hx, PairTree.kind]

namespace Rechoiced

variable {f : ChoiceTree → ChoiceTree}

section

variable (h : Rechoiced doc f t t') {d : PairId}

include h

theorem wellFormed (hwf : t.WellFormed) : t'.WellFormed := hwf.of_same_links h.parent_eq fun x => .of_eq (h.held_eq x)

theorem isDocument_eq (x : PairId) : (t'.kind x).isDocument = (t.kind x).isDocument := by
  rw [isDocument_eq_isSome, isDocument_eq_isSome, h.choices_eq]
  split
  · exact Option.isSome_map
  · rfl

theorem nestsIn_iff (hwf : t.WellFormed) : t'.NestsIn d c above ↔ t.NestsIn d c above := by
  have hancestors : t'.ancestors c = t.ancestors c :=
    hwf.ancestors_eq_of_parents (h.wellFormed hwf) (P := fun _ => True) (fun x _ => h.parent_eq x)
      (fun _ _ _ _ => trivial) trivial
  constructor
  · exact fun hnests => hnests.of_same hancestors.symm (h.offers_eq c).symm fun a _ =>
      ⟨(h.isDocument_eq a).symm, (h.offers_eq a).symm⟩
  · exact fun hnests => hnests.of_same hancestors (h.offers_eq c) fun a _ =>
      ⟨h.isDocument_eq a, h.offers_eq a⟩

theorem holds (hwf : t.WellFormed) (hholds : t.HoldsChoices d choices) : t'.HoldsChoices d choices :=
  hholds.congr (fun _ _ => h.nestsIn_iff hwf) fun c _ _ => h.start_eq c

end

end Rechoiced

theorem registerChoice_eq_self (h : t.enclosingDocument? child = none) : registerChoice t child = t := by
  unfold registerChoice
  rw [h]

theorem registerChoice_rechoiced (h : t.enclosingDocument? child = some doc) :
    Rechoiced doc (·.insert (((t.ancestors child).takeWhile (· ≠ doc)).find? t.offers) child) t
      (registerChoice t child) := by
  have heq : registerChoice t child = t.modify doc (Pair.mapChoices
      (·.insert (((t.ancestors child).takeWhile (· ≠ doc)).find? t.offers) child)) := by
    unfold registerChoice
    rw [h]
    rfl
  rw [heq]
  exact mapChoices_rechoiced t doc _

theorem registerChoice_keeps (t : PairTree) (child x : PairId) : (registerChoice t child).offers x = t.offers x ∧
      (registerChoice t child).startOf x = t.startOf x := by
  cases hdocument : t.enclosingDocument? child with
  | none =>
    rw [registerChoice_eq_self hdocument]
    exact ⟨rfl, rfl⟩
  | some document =>
    have hchanged := registerChoice_rechoiced hdocument
    exact ⟨hchanged.offers_eq x, hchanged.start_eq x⟩

/-- A pair is put somewhere and entered into the choices of its document, behind all choices that are there. -/
theorem Hung.registerChoice_charted (h : Hung parent child t t') (hcharted : t.Charted) (hoffers : t.offers child)
    (hlast : ∀ doc ∈ t'.ancestors child, ∀ c a, t.NestsIn doc c a → t.startOf c < t.startOf child) :
    (registerChoice t' child).Charted := by
  cases hdocument : t'.enclosingDocument? child with
  | none =>
    rw [registerChoice_eq_self hdocument]
    refine h.charted hcharted fun doc a hnests => ?_
    cases hdocument.symm.trans (h.wellFormed'.nestsIn_iff.mp hnests).2.1
  | some document =>
    have hoffers' : t'.offers child := (offers_append h.append_eq child).trans hoffers
    have hnests := h.wellFormed'.nestsIn_iff.mpr ⟨hoffers', hdocument, rfl⟩
    have hchanged := registerChoice_rechoiced hdocument
    refine ⟨fun doc choices hchoices => hchanged.holds h.wellFormed' ?_, fun x p hparent => ?_⟩
    · rw [hchanged.choices_eq] at hchoices
      split at hchoices
      · rename_i hdoc
        subst hdoc
        obtain ⟨old, hold, rfl⟩ := Option.map_eq_some_iff.mp hchoices
        exact h.holdsChoices_insert hcharted hold hnests (hlast doc hnests.mem_ancestors)
      · rename_i hdoc
        refine h.holds hcharted hchoices fun a ha => hdoc ?_
        exact (h.wellFormed'.nestsIn_unique ha hnests).1
    · refine (h.admits hcharted ((hchanged.parent_eq x).symm.trans hparent)).of_same (hchanged.isComment_eq x)
        (hchanged.isChoice_eq x) fun hp => ?_
      exact ⟨(hchanged.isComment_eq p).trans hp, hchanged.offers_eq p⟩

end PairTree

end PairMarkup
