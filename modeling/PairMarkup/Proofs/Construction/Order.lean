import PairMarkup.Proofs.Construction.Strokes

namespace PairMarkup

open List PairTree

/-- The fault of a namespace definition that comes too late. -/
def Pair.outOfOrder (pair : Pair) : Fault :=
  .namespaceDefinitionOutOfOrder pair.nameText pair.span.start.line pair.span.start.column

namespace PairTree

variable {n : Nat} {t t' : PairTree} {x parent child : PairId} {ids : List PairId}

/-- In front of a namespace definition there are only comments and other namespace definitions. -/
def Leading (t : PairTree) (ids : List PairId) : Prop :=
  ids.Pairwise fun a c => (t.kind c).isNamespaceDefinition = true →
    (t.kind a).isComment = true ∨ (t.kind a).isNamespaceDefinition = true

instance (t : PairTree) (ids : List PairId) : Decidable (t.Leading ids) :=
  inferInstanceAs (Decidable (ids.Pairwise _))

theorem Leading.congr (h : t.Leading ids) (hcomment : ∀ c ∈ ids, (t'.kind c).isComment = (t.kind c).isComment)
    (hdefinition : ∀ c ∈ ids, (t'.kind c).isNamespaceDefinition = (t.kind c).isNamespaceDefinition) :
    t'.Leading ids := by
  apply h.imp_of_mem
  intro a c ha hc hac
  rw [hdefinition c hc, hcomment a ha, hdefinition a ha]
  exact hac

theorem hasContent_eq_false_iff : t.hasContent x = false ↔
    ∀ c ∈ t.children x, (t.kind c).isComment ∨ (t.kind c).isNamespaceDefinition := by
  simp only [hasContent, any_eq_false, Bool.and_eq_true, Bool.not_eq_true', not_and_or, Bool.not_eq_false]

theorem leading_concat_iff {c : PairId} : t.Leading (ids ++ [c]) ↔ t.Leading ids ∧ ((t.kind c).isNamespaceDefinition →
      ∀ a ∈ ids, (t.kind a).isComment ∨ (t.kind a).isNamespaceDefinition) := by
  rw [Leading, pairwise_append]
  simp only [pairwise_singleton, mem_singleton, forall_eq, true_and, Leading]
  exact and_congr_right fun _ => ⟨fun h hc a ha => h a ha hc, fun h a ha hc => h hc a ha⟩

/-- Only a namespace definition behind content breaks the order. -/
theorem not_leading_concat_iff (h : t.Leading (t.children parent)) : ¬ t.Leading (t.children parent ++ [child]) ↔
    (t.kind child).isNamespaceDefinition ∧ t.hasContent parent := by
  rw [leading_concat_iff, not_and, Classical.not_imp, ← hasContent_eq_false_iff, Bool.not_eq_false]
  exact ⟨fun hnot => hnot h, fun hnot _ => hnot⟩

theorem append_eq_outOfOrder (haccepts : t.acceptsChildren parent)
    (hchild : (t.kind child).isNamespaceDefinition) (hcontent : t.hasContent parent) :
    t.append parent child = .error (t.get child).outOfOrder := by
  have hkind : (t.get child).kind.isNamespaceDefinition := hchild
  simp [append, haccepts, hkind, hcontent, Pair.outOfOrder]

theorem append_outOfOrder {name : String} {line column : Nat}
    (h : t.append parent child = .error (.namespaceDefinitionOutOfOrder name line column)) :
    (t.kind child).isNamespaceDefinition ∧ t.hasContent parent ∧
      Fault.namespaceDefinitionOutOfOrder name line column = (t.get child).outOfOrder := by
  simp only [append] at h
  split at h
  · cases h
  · split at h
    · rename_i hcond
      rw [Bool.and_eq_true] at hcond
      exact ⟨hcond.1, hcond.2, (Except.error.inj h).symm⟩
    · cases h

theorem hasContent_of_append (h : t.append parent child = .ok t')
    (hchild : (t.kind child).isNamespaceDefinition) : t.hasContent parent = false := by
  cases hcontent : t.hasContent parent with
  | false => rfl
  | true =>
    have hkind : (t.get child).kind.isNamespaceDefinition := hchild
    simp only [append, hkind, hcontent, Bool.and_self, if_true] at h
    split at h <;> cases h

theorem exists_append_of_order (haccepts : (t.kind child).isComment ∨ t.acceptsChildren parent)
    (hcontent : (t.kind child).isNamespaceDefinition → t.hasContent parent = false) :
    ∃ t', t.append parent child = .ok t' := by
  cases hchild : (t.kind child).isNamespaceDefinition with
  | false => exact exists_append t hchild haccepts
  | true =>
    have hkind : (t.get child).kind.isNamespaceDefinition := hchild
    have hcomment : (t.kind child).isComment = false := by
      cases hk : t.kind child <;> simp [hk, Kind.isNamespaceDefinition, Kind.isComment] at hchild ⊢
    have hparent : t.acceptsChildren parent := haccepts.resolve_left (by simp [hcomment])
    simp [append, hparent, hcontent hchild]

/-- Pairs are in their parents in order, and all of them are there. -/
structure Ordered (t : PairTree) : Prop where
  inside : ∀ x, ∀ c ∈ t.children x, c < t.size
  leading : ∀ x, t.Leading (t.children x)

theorem Ordered.hasContent_add (h : t.Ordered) (pair : Pair) (hx : x < t.size) :
    (t.add pair).2.hasContent x = t.hasContent x := by
  rw [Bool.eq_iff_iff, hasContent, hasContent, any_eq_true, any_eq_true, children, get_add_of_ne t pair hx.ne]
  refine exists_congr fun c => and_congr_right fun hc => ?_
  rw [kind, get_add_of_ne t pair (h.inside x c hc).ne, kind]

/-- A pair takes others if it has content. -/
def Open (t : PairTree) (x : PairId) : Prop := t.hasContent x = true → t.acceptsChildren x = true

theorem append_eq_outOfOrder_iff (h : t.Open parent) : t.append parent child = .error (t.get child).outOfOrder ↔
    (t.kind child).isNamespaceDefinition ∧ t.hasContent parent := by
  constructor
  · intro happend
    obtain ⟨hdefinition, hcontent, -⟩ := append_outOfOrder happend
    exact ⟨hdefinition, hcontent⟩
  · rintro ⟨hdefinition, hcontent⟩
    exact append_eq_outOfOrder (h hcontent) hdefinition hcontent

theorem acceptsChildren_eq_of_standing (h : (t'.get x).standing = (t.get x).standing) :
    t'.acceptsChildren x = t.acceptsChildren x := by
  simp only [Pair.standing, Pair.Standing.mk.injEq] at h
  simp only [acceptsChildren, h.1, h.2.1, h.2.2.1, h.2.2.2]

/-- What a stroke does to the children of pairs: one of them may get one more. It is no namespace definition behind
    content, and it is a comment if it is put into an old pair that takes no others. -/
structure Strikes (n : Nat) (t t' : PairTree) : Prop where
  size_le : t.size ≤ t'.size
  isComment_eq : ∀ c, c < t.size → (t'.kind c).isComment = (t.kind c).isComment
  isNamespaceDefinition_eq : ∀ c, c < t.size → (t'.kind c).isNamespaceDefinition = (t.kind c).isNamespaceDefinition
  accepts_eq : ∀ x, x < n → t'.acceptsChildren x = t.acceptsChildren x
  children : ∀ x, t'.children x = t.children x ∨ ∃ c, c < t'.size ∧ t'.children x = t.children x ++ [c] ∧
    ((t'.kind c).isNamespaceDefinition = true → t.hasContent x = false) ∧
    (x < n → (t'.kind c).isComment = true ∨ t.acceptsChildren x = true)

theorem Stroke.strikes {origin : String × Nat} (h : Stroke origin n t t') (hn : n ≤ t.size) : Strikes n t t' := by
  have hsize := h.size_le
  cases h with
  | @make pair hchildren _ =>
    have hold : ∀ x, x < t.size → (t.add pair).2.get x = t.get x := fun x hx =>
      get_add_of_ne t pair hx.ne
    refine ⟨hsize, fun c hc => ?_, fun c hc => ?_, fun x hx => ?_, fun x => .inl ?_⟩
    · rw [kind, hold c hc, kind]
    · rw [kind, hold c hc, kind]
    · apply acceptsChildren_eq_of_standing
      rw [hold x (hx.trans_le hn)]
    · rw [children, get_add, children]
      split
      · rename_i hx
        rw [hchildren, hx, get_eq_default le_rfl]
        rfl
      · rfl
  | @hang parent child _ hchild happend =>
    have hkind : ∀ x, t'.kind x = t.kind x := fun x => append_eq_of_keeps Pair.kind happend x fun _ _ _ _ => rfl
    refine ⟨hsize, fun c _ => by rw [hkind], fun c _ => by rw [hkind], fun x _ => ?_, fun x => ?_⟩
    · exact acceptsChildren_eq_of_standing (append_eq_of_keeps Pair.standing happend x fun _ _ _ _ => rfl)
    · obtain ⟨isChoice, heq⟩ := append_eq_ok happend
      have hfirst : ∀ y, ((t.modify child fun p => { p with parent := some parent, isChoice }).get y).children =
          t.children y := fun y => modify_eq_of_keeps Pair.children t child y fun _ => rfl
      by_cases hx : x = parent ∧ x < t.size
      · refine .inr ⟨child, hchild.trans_le hsize, ?_, fun hdefinition => ?_, fun _ => ?_⟩
        · rw [heq, children, get_modify, if_pos (by rwa [size_modify]), hfirst]
        · rw [hx.1]
          exact hasContent_of_append happend (hkind child ▸ hdefinition)
        · rw [hkind, hx.1]
          exact append_welcome happend
      · refine .inl ?_
        rw [heq, children, get_modify, if_neg (by rwa [size_modify]), hfirst]
  | @adjust id f hstanding hchildren _ =>
    have hsame : ∀ x, ((t.modify id f).get x).standing = (t.get x).standing := fun x =>
      modify_eq_of_keeps Pair.standing t id x hstanding
    refine ⟨hsize, fun c _ => ?_, fun c _ => ?_, fun x _ => acceptsChildren_eq_of_standing (hsame x), fun x => .inl ?_⟩
    · exact congrArg Pair.Standing.isComment (hsame c)
    · exact congrArg Pair.Standing.isNamespaceDefinition (hsame c)
    · exact modify_eq_of_keeps Pair.children t id x hchildren
  | @fill id f hid hkind hchildren _ =>
    have hsame : ∀ c, (t.modify id f).kind c = t.kind c := fun c => modify_eq_of_keeps Pair.kind t id c hkind
    refine ⟨hsize, fun c _ => by rw [hsame], fun c _ => by rw [hsame], fun x hx => ?_, fun x => .inl ?_⟩
    · apply acceptsChildren_eq_of_standing
      rw [get_modify_of_ne (hx.trans_le hid).ne]
    · exact modify_eq_of_keeps Pair.children t id x hchildren
  | @refer owner reference howner hreference hdefinition =>
    generalize ht' : t.modify owner (fun pair =>
      { pair with children := pair.children ++ [reference], valueKind := .pairValue }) = t' at hsize ⊢
    have hsame : ∀ c, t'.kind c = t.kind c := fun c => ht' ▸ modify_eq_of_keeps Pair.kind t owner c fun _ => rfl
    refine ⟨hsize, fun c _ => by rw [hsame], fun c _ => by rw [hsame], fun x hx => ?_, fun x => ?_⟩
    · apply acceptsChildren_eq_of_standing
      rw [← ht', get_modify_of_ne (hx.trans_le howner).ne]
    · by_cases hx : x = owner ∧ x < t.size
      · refine .inr ⟨reference, hreference.trans_le hsize, ?_, fun hkind => ?_, fun hlt => ?_⟩
        · rw [← ht', children, get_modify, if_pos hx]
          rfl
        · rw [hsame, hdefinition] at hkind
          cases hkind
        · exact absurd hlt (not_lt.mpr (hx.1 ▸ howner))
      · refine .inl ?_
        rw [← ht', children, get_modify, if_neg hx]
        rfl

namespace Strikes

variable (h : Strikes n t t') (hordered : t.Ordered)

include h hordered

theorem hasContent_of (hcontent : t'.hasContent x) : t.hasContent x ∨ (x < n → t.acceptsChildren x) := by
  by_contra hnot
  rw [not_or, Classical.not_imp, Bool.not_eq_true, Bool.not_eq_true] at hnot
  obtain ⟨hempty, hx, hrefused⟩ := hnot
  rw [hasContent_eq_false_iff] at hempty
  have hold : ∀ c ∈ t.children x, (t'.kind c).isComment ∨ (t'.kind c).isNamespaceDefinition := by
    intro c hc
    rw [h.isComment_eq c (hordered.inside x c hc), h.isNamespaceDefinition_eq c (hordered.inside x c hc)]
    exact hempty c hc
  have hnone : t'.hasContent x = false := by
    rw [hasContent_eq_false_iff]
    rcases h.children x with hsame | ⟨c, -, hmore, -, hwelcome⟩
    · rw [hsame]
      exact hold
    · rw [hmore]
      intro a ha
      rcases mem_append.mp ha with ha | ha
      · exact hold a ha
      · rw [mem_singleton.mp ha]
        exact .inl ((hwelcome hx).resolve_right (by rw [hrefused]; exact Bool.false_ne_true))
  rw [hnone] at hcontent
  cases hcontent

theorem open_of (hx : x < n) (hopen : t.Open x) : t'.Open x := by
  intro hcontent
  rw [h.accepts_eq x hx]
  rcases h.hasContent_of hordered hcontent with hold | hnew
  · exact hopen hold
  · exact hnew hx

theorem ordered : t'.Ordered := by
  refine ⟨fun x c hc => ?_, fun x => ?_⟩
  · rcases h.children x with hsame | ⟨d, hd, hmore, -, -⟩
    · exact (hordered.inside x c (hsame ▸ hc)).trans_le h.size_le
    · rw [hmore] at hc
      rcases mem_append.mp hc with hc | hc
      · exact (hordered.inside x c hc).trans_le h.size_le
      · exact mem_singleton.mp hc ▸ hd
  · have hold : t'.Leading (t.children x) := (hordered.leading x).congr
      (fun c hc => h.isComment_eq c (hordered.inside x c hc))
      fun c hc => h.isNamespaceDefinition_eq c (hordered.inside x c hc)
    rcases h.children x with hsame | ⟨d, -, hmore, hdefinition, -⟩
    · rw [hsame]
      exact hold
    · rw [hmore, leading_concat_iff]
      refine ⟨hold, fun hd a ha => ?_⟩
      rw [h.isComment_eq a (hordered.inside x a ha), h.isNamespaceDefinition_eq a (hordered.inside x a ha)]
      exact hasContent_eq_false_iff.mp (hdefinition hd) a ha

end Strikes

namespace Strokes

variable {origin : String × Nat} (h : Strokes origin n t t') (hn : n ≤ t.size) (hordered : t.Ordered)

include h hn hordered

theorem ordered : t'.Ordered := by
  induction h with
  | refl => exact hordered
  | tail hstrokes hstroke ih =>
    exact (hstroke.strikes (hn.trans (size_le hstrokes))).ordered ih

omit hordered in
theorem accepts_eq (hx : x < n) : t'.acceptsChildren x = t.acceptsChildren x := by
  induction h with
  | refl => rfl
  | tail hstrokes hstroke ih =>
    exact ((hstroke.strikes (hn.trans (size_le hstrokes))).accepts_eq x hx).trans ih

omit hordered in
theorem isNamespaceDefinition_eq (hx : x < t.size) :
    (t'.kind x).isNamespaceDefinition = (t.kind x).isNamespaceDefinition := by
  induction h with
  | refl => rfl
  | tail hstrokes hstroke ih =>
    have hle := size_le hstrokes
    exact ((hstroke.strikes (hn.trans hle)).isNamespaceDefinition_eq x (hx.trans_le hle)).trans ih

theorem open_of (hx : x < n) (hopen : t.Open x) : t'.Open x := by
  induction h with
  | refl => exact hopen
  | tail hstrokes hstroke ih =>
    exact (hstroke.strikes (hn.trans (size_le hstrokes))).open_of (ordered hstrokes hn hordered) hx ih

end Strokes

end PairTree

variable {ε α β : Type} {e : ε}

theorem bind_eq_error {x : Except ε α} {f : α → Except ε β} :
    x >>= f = .error e ↔ x = .error e ∨ ∃ a, x = .ok a ∧ f a = .error e := by
  cases x with
  | error e' => simp [bind, Except.bind]
  | ok a => simp [bind, Except.bind]

theorem foldlM_eq_error_iff {f : β → α → Except ε β} {as : List α} {b : β} :
    as.foldlM f b = .error e ↔ ∃ before a after b', as = before ++ a :: after ∧
      before.foldlM f b = .ok b' ∧ f b' a = .error e := by
  induction as generalizing b with
  | nil => simp [pure, Except.pure]
  | cons a as ih =>
    rw [foldlM_cons, bind_eq_error]
    constructor
    · rintro (hfirst | ⟨b', hfirst, hrest⟩)
      · exact ⟨[], a, as, b, rfl, rfl, hfirst⟩
      · obtain ⟨before, d, after, c, rfl, hbefore, hd⟩ := ih.mp hrest
        refine ⟨a :: before, d, after, c, rfl, ?_, hd⟩
        rw [foldlM_cons, hfirst]
        exact hbefore
    · rintro ⟨before, d, after, c, heq, hbefore, hd⟩
      cases before with
      | nil =>
        cases hbefore
        obtain ⟨rfl, rfl⟩ := List.cons.inj heq
        exact .inl hd
      | cons a' before =>
        obtain ⟨rfl, rfl⟩ := List.cons.inj heq
        rw [foldlM_cons, bind_eq_ok] at hbefore
        obtain ⟨b', hfirst, hbefore⟩ := hbefore
        exact .inr ⟨b', hfirst, ih.mpr ⟨before, d, after, c, rfl, hbefore, hd⟩⟩

namespace Builder

open PairTree LineState

variable {modules : List PairId} {site : Site} {b b' : Builder} {block parent child id : PairId} {halt : Halt}
  {position : Position} {pair : Pair}

theorem append_ne_error (haccepts : (b.tree.kind child).isComment ∨ b.tree.acceptsChildren parent)
    (hcontent : (b.tree.kind child).isNamespaceDefinition → b.tree.hasContent parent = false) :
    b.append parent child ≠ .error halt := by
  obtain ⟨tree, htree⟩ := exists_append_of_order haccepts hcontent
  simp [append, htree]

/-- A new pair is not refused where it may be put, unless it is a namespace definition. -/
theorem add_append_ne_error (hpair : pair.kind.isNamespaceDefinition = false)
    (haccepts : pair.kind.isComment ∨ parent < b.tree.size ∧ b.tree.acceptsChildren parent) :
    (b.add pair).2.append parent (b.add pair).1 ≠ .error halt := by
  have hself : (b.add pair).2.tree.get b.tree.size = pair := get_add_self ..
  apply append_ne_error
  · apply haccepts.imp
    · intro hcomment
      change ((b.add pair).2.tree.get b.tree.size).kind.isComment = true
      rw [hself, hcomment]
    · rintro ⟨hlt, haccepts⟩
      rw [← haccepts]
      apply acceptsChildren_eq_of_standing
      exact congrArg Pair.standing (get_add_of_ne b.tree pair hlt.ne)
  · intro hdefinition
    change ((b.add pair).2.tree.get b.tree.size).kind.isNamespaceDefinition = true at hdefinition
    rw [hself, hpair] at hdefinition
    cases hdefinition

theorem addComment_ne_error (b : Builder) (site : Site) (parent : PairId) (comment : Comment) :
    b.addComment site parent comment ≠ .error halt := by
  intro h
  simp only [addComment] at h
  exact add_append_ne_error rfl (.inl rfl) h

theorem redirect_ne_error (hlt : site.root < b.tree.size) (hroot : b.tree.acceptsChildren site.root) :
    b.redirect site parent child ≠ .error halt := by
  intro h
  simp only [redirect, implicitDocument] at h
  split at h
  · split at h
    · cases h
    · rw [bind_eq_error] at h
      rcases h with h | ⟨_, _, h⟩
      · exact add_append_ne_error rfl (.inr ⟨hlt, hroot⟩) h
      · cases h
  · cases h

theorem redirect_eq_self (h : isTopLevel (b.tree.kind child)) : b.redirect site parent child = .ok (parent, b) := by
  have h : isTopLevel (b.tree.get child).kind := h
  simp [redirect, h]

theorem place_eq_error (h : b.place site parent child position = .error halt) :
    (b.tree.kind child).isNamespaceDefinition ∧ b.tree.hasContent parent ∧
      halt = ⟨(b.tree.get child).outOfOrder, b.log⟩ := by
  simp only [place] at h
  split at h
  · cases h
  · rename_i name line column happend
    obtain ⟨hdefinition, hcontent, hfault⟩ := append_outOfOrder happend
    refine ⟨hdefinition, hcontent, ?_⟩
    rw [← hfault]
    exact (Except.error.inj h).symm
  · -- the new pair has no content, so that nothing is refused there
    exfalso
    refine append_ne_error (.inr ?_) (fun _ => ?_) h
    · change (b.tree.add _).2.acceptsChildren b.tree.size = true
      rw [acceptsChildren, get_add_self]
      rfl
    · change (b.tree.add _).2.hasContent b.tree.size = false
      rw [hasContent, children, get_add_self]
      rfl

/-- A pair is refused just if it is a namespace definition and comes behind content. -/
theorem attach_eq_error_iff (hlt : site.root < b.tree.size)
    (hroot : b.tree.acceptsChildren site.root) (hchild : child < b.tree.size) (hopen : b.tree.Open parent) :
    b.attach site parent child position = .error halt ↔ (b.tree.kind child).isNamespaceDefinition ∧
      b.tree.hasContent parent ∧ halt = ⟨(b.tree.get child).outOfOrder, b.log⟩ := by
  have htop : (b.tree.kind child).isNamespaceDefinition = true →
      b.redirect site parent child = .ok (parent, b) := fun hdefinition =>
    redirect_eq_self (by simp [isTopLevel, hdefinition])
  rw [attach, bind_eq_error]
  constructor
  · rintro (h | ⟨⟨target, c⟩, htarget, h⟩)
    · exact absurd h (redirect_ne_error hlt hroot)
    · obtain ⟨hdefinition, hcontent, hhalt⟩ := place_eq_error h
      have hsteps : Strokes site.origin b.tree.size b.tree c.tree := (redirect_draws htarget).strokes
      rw [hsteps.isNamespaceDefinition_eq le_rfl hchild] at hdefinition
      cases (htop hdefinition).symm.trans htarget
      exact ⟨hdefinition, hcontent, hhalt⟩
  · rintro ⟨hdefinition, hcontent, rfl⟩
    refine .inr ⟨(parent, b), htop hdefinition, ?_⟩
    simp only [place, append_eq_outOfOrder (hopen hcontent) hdefinition hcontent]
    rfl

theorem addPair_eq_error_iff {inGroup : Bool} {item : PairItem} (hordered : b.tree.Ordered)
    (hlt : site.root < b.tree.size) (hroot : b.tree.acceptsChildren site.root) (hparent : parent < b.tree.size)
    (hopen : b.tree.Open parent) : b.addPair site parent inGroup item = .error halt ↔
      (b.pairFor site parent inGroup item.head).kind.isNamespaceDefinition ∧ b.tree.hasContent parent ∧
        halt = ⟨(b.pairFor site parent inGroup item.head).outOfOrder, b.log⟩ := by
  generalize hpair : b.pairFor site parent inGroup item.head = pair
  have hmade : Strokes pair.origin b.tree.size b.tree (b.tree.add pair).2 := .single (.make (by rw [← hpair]; rfl) rfl)
  have hself : (b.tree.add pair).2.get b.tree.size = pair := get_add_self ..
  have hattach : b.addPair site parent inGroup item = .error halt ↔
      (b.add pair).2.attach site parent b.tree.size item.head.span.stop = .error halt := by
    simp only [addPair]
    rw [bind_eq_error, ← hpair]
    constructor
    · rintro (h | ⟨_, _, h⟩)
      · exact h
      · cases h
    · exact .inl
  rw [hattach, attach_eq_error_iff, kind]
  · change ((b.tree.add pair).2.get b.tree.size).kind.isNamespaceDefinition = true ∧
      (b.tree.add pair).2.hasContent parent = true ∧
        halt = ⟨((b.tree.add pair).2.get b.tree.size).outOfOrder, b.log⟩ ↔ _
    rw [hself, hordered.hasContent_add pair hparent]
  · exact hlt.trans_le hmade.size_le
  · rw [← hroot]
    exact hmade.accepts_eq le_rfl hlt
  · exact lt_size_add b.tree pair
  · exact hmade.open_of le_rfl hordered hparent hopen

/-- What holds within a line whose block is `block`. -/
structure Poised (modules : List PairId) (site : Site) (block : PairId) (b : Builder) (state : LineState) : Prop
    extends Sound modules b where
  ordered : b.tree.Ordered
  root_accepts : b.tree.acceptsChildren site.root = true
  block_lt : block < b.tree.size
  block_open : b.tree.Open block
  within : state.Within b.tree.size
  levels_open : ∀ x ∈ state.levels, b.tree.Open x

namespace Poised

variable {state state' : LineState}

section

variable (h : Poised modules site block b state)

include h

theorem container_open : b.tree.Open (state.container block) := by
  unfold container
  cases hlast : state.levels.getLast? with
  | none => exact h.block_open
  | some x => exact h.levels_open x (mem_of_getLast? hlast)

theorem of_strokes (hroot : site.root ∈ modules)
    (hgrows : Grows modules b b') (hstrokes : Strokes site.origin b.tree.size b.tree b'.tree)
    (hwithin : state'.Within b'.tree.size)
    (hlevels : ∀ x ∈ state'.levels, x ∈ state.levels ∨ b'.tree.Open x) : Poised modules site block b' state' where
  toSound := h.toSound.grows hgrows
  ordered := hstrokes.ordered le_rfl h.ordered
  root_accepts := (hstrokes.accepts_eq le_rfl (h.parsed.module_lt_size hroot)).trans h.root_accepts
  block_lt := h.block_lt.trans_le hstrokes.size_le
  block_open := hstrokes.open_of le_rfl h.ordered h.block_lt h.block_open
  within := hwithin
  levels_open x hx := by
    rcases hlevels x hx with hold | hopen
    · exact hstrokes.open_of le_rfl h.ordered (h.within.levels x hold) (h.levels_open x hold)
    · exact hopen

theorem addItem (hroot : site.root ∈ modules) {item : Item}
    (hok : b.addItem site block state item = .ok (b', state')) :
    Poised modules site block b' state' := by
  obtain ⟨hgrows, hwithin⟩ := addItem_grows h.parsed hroot h.block_lt h.within hok
  cases item with
  | separator =>
    cases hok
    apply h.of_strokes hroot hgrows (.refl _) hwithin
    intro x hx
    unfold separate at hx
    split at hx
    · exact .inl (mem_of_mem_take hx)
    · exact .inl hx
  | openGroup =>
    cases hok
    exact h.of_strokes hroot hgrows (.refl _) hwithin fun x hx => .inl hx
  | closeGroup =>
    cases hok
    apply h.of_strokes hroot hgrows (.refl _) hwithin
    intro x hx
    unfold closeGroup at hx
    split at hx
    · exact .inl hx
    · exact .inl (mem_of_mem_take hx)
  | note note =>
    cases hok
    exact h.of_strokes hroot hgrows (.refl _) hwithin fun x hx => .inl hx
  | comment comment =>
    rw [Builder.addItem, bind_eq_ok] at hok
    obtain ⟨c, hc, hok⟩ := hok
    cases hok
    exact h.of_strokes hroot hgrows (addComment_draws hc).strokes hwithin fun x hx => .inl hx
  | pair item =>
    rw [Builder.addItem, bind_eq_ok] at hok
    obtain ⟨⟨id, c⟩, hc, hok⟩ := hok
    cases hok
    obtain ⟨rfl, hdraws, hbare⟩ := addPair_draws hc
    apply h.of_strokes hroot hgrows hdraws.strokes hwithin
    intro x hx
    unfold LineState.enter at hx
    split at hx
    · rename_i hlevel
      rcases mem_append.mp hx with hx | hx
      · exact .inl hx
      · -- a pair that others are put into has no value and, when it is made, no content
        obtain rfl := mem_singleton.mp hx
        have hnone : item.value = none := by
          rw [Bool.or_eq_true] at hlevel
          rcases hlevel with hblock | hgroup
          · have hannounced := item.announced
            cases hdelimiter : item.head.delimiter <;> rw [hdelimiter] at hblock hannounced <;>
              simp_all [Delimiter.isBlock, Delimiter.isValue]
          · exact item.grouped hgroup
        generalize hpair : b.pairFor site (state.container block) (!state.groups.isEmpty) item.head = pair at hbare
        have hmade : Strokes pair.origin b.tree.size b.tree (b.tree.add pair).2 :=
          .single (.make (by rw [← hpair]; rfl) rfl)
        have hempty : (b.tree.add pair).2.hasContent b.tree.size = false := by
          rw [hasContent, children, get_add_self, ← hpair]
          rfl
        refine .inr ((hbare hnone).open_of ?_ (hmade.ordered le_rfl h.ordered) (Nat.lt_succ_self _) fun hcontent => ?_)
        · exact (size_add ..).symm.le
        · rw [hempty] at hcontent
          cases hcontent
    · exact .inl hx

end

theorem addItems (h : Poised modules site block b (.initial block)) (hroot : site.root ∈ modules) {items : List Item}
    (hok : b.addItems site block items = .ok (b', state')) :
    Poised modules site block b' state' := by
  refine foldlM_ok_induction (P := fun s => Poised modules site block s.1 s.2) ?_ h hok
  rintro ⟨c, state⟩ item - ⟨c', state'⟩ hc hstep
  exact hc.addItem hroot hstep

/-- An item is refused just if it makes a namespace definition behind content. -/
theorem addItem_eq_error_iff (h : Poised modules site block b state) (hroot : site.root ∈ modules) {item : Item} :
    b.addItem site block state item = .error halt ↔ ∃ pairItem, item = .pair pairItem ∧
      let pair := b.pairFor site (state.container block) (!state.groups.isEmpty) pairItem.head
      pair.kind.isNamespaceDefinition = true ∧ b.tree.hasContent (state.container block) = true ∧
        halt = ⟨pair.outOfOrder, b.log⟩ := by
  cases item with
  | comment comment =>
    rw [Builder.addItem, bind_eq_error]
    constructor
    · rintro (hc | ⟨_, _, hc⟩)
      · exact absurd hc (addComment_ne_error b site _ comment)
      · cases hc
    · rintro ⟨_, hc, _⟩
      cases hc
  | pair item =>
    have hpair : b.addPair site (state.container block) (!state.groups.isEmpty) item = .error halt ↔ _ :=
      addPair_eq_error_iff h.ordered (h.parsed.module_lt_size hroot) h.root_accepts
        (h.within.container h.block_lt) h.container_open
    rw [Builder.addItem, bind_eq_error]
    constructor
    · rintro (hc | ⟨_, _, hc⟩)
      · exact ⟨item, rfl, hpair.mp hc⟩
      · cases hc
    · rintro ⟨_, hc, hrest⟩
      cases hc
      exact .inl (hpair.mpr hrest)
  | _ =>
    constructor
    · intro hc
      cases hc
    · rintro ⟨_, hc, _⟩
      cases hc

end Poised

/-- What holds between lines. -/
structure Tidy (modules : List PairId) (site : Site) (b : Builder) : Prop extends Sound modules b where
  ordered : b.tree.Ordered
  root_accepts : b.tree.acceptsChildren site.root = true
  head_blocks : b.blocks.head? = some site.root

namespace Tidy

variable {depth : Nat} {lead : Span} {line : Line}

section

variable (h : b.Tidy modules site)

include h

theorem of_strokes (hroot : site.root ∈ modules) (hgrows : Grows modules b b')
    (hstrokes : Strokes site.origin b.tree.size b.tree b'.tree) : b'.Tidy modules site where
  toSound := h.toSound.grows hgrows
  ordered := hstrokes.ordered le_rfl h.ordered
  root_accepts := (hstrokes.accepts_eq le_rfl (h.parsed.module_lt_size hroot)).trans h.root_accepts
  head_blocks := by
    rw [hgrows.blocks_eq]
    exact h.head_blocks

theorem blockAt_zero : b.blockAt site 0 = site.root := by
  rw [blockAt, ← head?_eq_getElem?, h.head_blocks]
  rfl

theorem lineBlock_zero : b.lineBlock site 0 lead = (site.root, b) := by
  simp [lineBlock, h.blockAt_zero]

variable (hroot : site.root ∈ modules)

include hroot

theorem lineBlock (depth : Nat) (lead : Span) :
    Poised modules site (b.lineBlock site depth lead).1 (b.lineBlock site depth lead).2
      (.initial (b.lineBlock site depth lead).1) := by
  obtain ⟨hgrows, hlt⟩ := h.lineBlock_grows hroot depth lead
  suffices hopen : (b.lineBlock site depth lead).2.tree.Open (b.lineBlock site depth lead).1 by
    have hnext := h.of_strokes hroot hgrows (b.lineBlock_draws site depth lead).strokes
    refine ⟨hnext.toSound, hnext.ordered, hnext.root_accepts, hlt, hopen, .initial hlt, fun x hx => ?_⟩
    rw [mem_singleton.mp hx]
    exact hopen
  simp only [Builder.lineBlock]
  split
  · intro hcontent
    have hempty : (b.tree.add (.bare .element (.point lead.stop) site.file site.fileIndex)).2.hasContent
        b.tree.size = false := by
      rw [hasContent, children, get_add_self]
      rfl
    cases hempty.symm.trans hcontent
  · rename_i hcond
    intro _
    rcases Nat.eq_zero_or_pos depth with rfl | hdepth
    · exact h.blockAt_zero ▸ h.root_accepts
    · simpa [hdepth] using hcond

theorem addLine (hok : Builder.addLine site b line = .ok b') : b'.Tidy modules site := by
  have hsound := addLine_sound h.toSound hroot hok
  cases line with
  | rejected note =>
    cases hok
    exact ⟨hsound, h.ordered, h.root_accepts, h.head_blocks⟩
  | comments depth comments =>
    refine foldlM_ok_induction (P := Tidy modules site) (fun c comment _ c' hc hstep => ?_) h hok
    exact hc.of_strokes hroot (addComment_leads hc.parsed (hc.blockAt_lt hroot depth) hstep).toGrows
      (addComment_draws hstep).strokes
  | content depth lead items =>
    simp only [Builder.addLine] at hok
    rw [bind_eq_ok] at hok
    obtain ⟨⟨c, state⟩, hitems, hok⟩ := hok
    cases hok
    have hstart := h.lineBlock hroot depth lead
    have hafter := hstart.addItems hroot hitems
    refine ⟨hsound, hafter.ordered, hafter.root_accepts, ?_⟩
    obtain ⟨hgrows, -⟩ := addItems_grows hstart.parsed hroot hstart.block_lt hitems
    have hblocks : c.blocks = b.blocks := hgrows.blocks_eq.trans (h.lineBlock_grows hroot depth lead).1.blocks_eq
    rcases Nat.eq_zero_or_pos depth with rfl | hdepth
    · rw [h.lineBlock_zero]
      rfl
    · change (c.blocks.take depth ++ _ ++ _).head? = _
      rw [append_assoc, head?_append, head?_take, if_neg (ne_of_gt hdepth), hblocks, h.head_blocks]
      rfl

theorem addLines {lines : List Line} (hok : lines.foldlM (Builder.addLine site) b = .ok b') : b'.Tidy modules site :=
  foldlM_ok_induction (P := Tidy modules site) (fun _ _ _ _ hc hstep => hc.addLine hroot hstep) h hok

end

end Tidy

/-- Building comes to the point where the tree of `b` is to take `pair` into `parent`. -/
def Offers (site : Site) (start : Builder) (lines : List Line) (b : Builder) (parent : PairId) (pair : Pair) : Prop :=
  ∃ before depth lead done item rest after opened state,
    lines = before ++ .content depth lead (done ++ .pair item :: rest) :: after ∧
    before.foldlM (addLine site) start = .ok opened ∧
    (opened.lineBlock site depth lead).2.addItems site (opened.lineBlock site depth lead).1 done = .ok (b, state) ∧
    parent = state.container (opened.lineBlock site depth lead).1 ∧
    pair = b.pairFor site parent (!state.groups.isEmpty) item.head

/-- The pair would stand behind content although it is a namespace definition. -/
def Disorders (b : Builder) (parent : PairId) (pair : Pair) : Prop :=
  ¬ (b.tree.add pair).2.Leading ((b.tree.add pair).2.children parent ++ [b.tree.size])

theorem disorders_iff (hordered : b.tree.Ordered) (hparent : parent < b.tree.size)
    (hpair : pair.children = []) : b.Disorders parent pair ↔
      pair.kind.isNamespaceDefinition ∧ b.tree.hasContent parent := by
  have hmade : Strokes pair.origin b.tree.size b.tree (b.tree.add pair).2 := .single (.make hpair rfl)
  have hleading := (hmade.ordered le_rfl hordered).leading parent
  rw [Disorders, not_leading_concat_iff hleading, kind, get_add_self, hordered.hasContent_add pair hparent]

namespace Tidy

variable {lines : List Line} {pair : Pair} {c : Builder}

section

variable (h : b.Tidy modules site) (hroot : site.root ∈ modules)
  (hoffers : Offers site b lines c parent pair)

include h hroot hoffers

theorem ready_of_offers : c.tree.Ordered ∧ parent < c.tree.size ∧ c.tree.Open parent ∧ pair.children = [] := by
  obtain ⟨before, depth, lead, done, item, rest, after, opened, state, rfl, hbefore, hdone, rfl, rfl⟩ := hoffers
  have hopened := h.addLines hroot hbefore
  have hpoised := (hopened.lineBlock hroot depth lead).addItems hroot hdone
  exact ⟨hpoised.ordered, hpoised.within.container hpoised.block_lt, hpoised.container_open, rfl⟩

/-- What breaks the order is refused, and nothing else is refused for its order. -/
theorem append_offered_eq_error_iff :
    (c.tree.add pair).2.append parent c.tree.size = .error pair.outOfOrder ↔ c.Disorders parent pair := by
  obtain ⟨hordered, hparent, hopen, hpair⟩ := h.ready_of_offers hroot hoffers
  have hmade : Strokes pair.origin c.tree.size c.tree (c.tree.add pair).2 := .single (.make hpair rfl)
  rw [disorders_iff hordered hparent hpair, ← hordered.hasContent_add pair hparent]
  have hself : (c.tree.add pair).2.get c.tree.size = pair := get_add_self ..
  have hrefused : (c.tree.add pair).2.append parent c.tree.size =
      .error ((c.tree.add pair).2.get c.tree.size).outOfOrder ↔ _ :=
    append_eq_outOfOrder_iff (hmade.open_of le_rfl hordered hparent hopen)
  rw [kind, hself] at hrefused
  exact hrefused

end

theorem addLine_eq_error_iff {line : Line} {halt : Halt} (h : b.Tidy modules site) (hroot : site.root ∈ modules) :
    Builder.addLine site b line = .error halt ↔ ∃ depth lead done item rest c state,
      line = .content depth lead (done ++ .pair item :: rest) ∧
      (b.lineBlock site depth lead).2.addItems site (b.lineBlock site depth lead).1 done = .ok (c, state) ∧
      let parent := state.container (b.lineBlock site depth lead).1
      let pair := c.pairFor site parent (!state.groups.isEmpty) item.head
      c.Disorders parent pair ∧ halt = ⟨pair.outOfOrder, c.log⟩ := by
  cases line with
  | rejected note =>
    constructor
    · intro hfails
      cases hfails
    · rintro ⟨_, _, _, _, _, _, _, hline, _⟩
      cases hline
  | comments depth comments =>
    constructor
    · intro hfails
      obtain ⟨_, comment, _, c, -, -, hfails⟩ := foldlM_eq_error_iff.mp hfails
      exact absurd hfails (addComment_ne_error c site _ comment)
    · rintro ⟨_, _, _, _, _, _, _, hline, _⟩
      cases hline
  | content depth lead items =>
    have hstart := h.lineBlock hroot depth lead
    have hitem : ∀ done item rest, items = done ++ item :: rest → ∀ c state,
        (b.lineBlock site depth lead).2.addItems site (b.lineBlock site depth lead).1 done = .ok (c, state) →
        Poised modules site (b.lineBlock site depth lead).1 c state := by
      rintro done item rest rfl c state hdone
      exact hstart.addItems hroot hdone
    have hfails : Builder.addLine site b (.content depth lead items) = .error halt ↔
        (b.lineBlock site depth lead).2.addItems site (b.lineBlock site depth lead).1 items = .error halt := by
      simp only [Builder.addLine]
      rw [bind_eq_error]
      refine ⟨fun hfails => hfails.resolve_right ?_, .inl⟩
      rintro ⟨_, _, hfails⟩
      cases hfails
    rw [hfails, Builder.addItems, foldlM_eq_error_iff]
    constructor
    · rintro ⟨done, item, rest, ⟨c, state⟩, hitems, hdone, hfails⟩
      have hpoised := hitem done item rest hitems c state hdone
      obtain ⟨pairItem, rfl, hdefinition, hcontent, rfl⟩ := (hpoised.addItem_eq_error_iff hroot).mp hfails
      refine ⟨depth, lead, done, pairItem, rest, c, state, by rw [hitems], hdone, ?_, rfl⟩
      exact (disorders_iff hpoised.ordered (hpoised.within.container hpoised.block_lt) rfl).mpr ⟨hdefinition, hcontent⟩
    · rintro ⟨_, _, done, pairItem, rest, c, state, hsame, hdone, hbreaks, rfl⟩
      cases hsame
      have hpoised := hitem done _ rest rfl c state hdone
      obtain ⟨hdefinition, hcontent⟩ :=
        (disorders_iff hpoised.ordered (hpoised.within.container hpoised.block_lt) rfl).mp hbreaks
      exact ⟨done, _, rest, (c, state), rfl, hdone,
        (hpoised.addItem_eq_error_iff hroot).mpr ⟨pairItem, rfl, hdefinition, hcontent, rfl⟩⟩

/-- Building fails just where the next pair would break the order. -/
theorem addLines_eq_error_iff {halt : Halt} (h : b.Tidy modules site) (hroot : site.root ∈ modules) :
    lines.foldlM (Builder.addLine site) b = .error halt ↔
      ∃ c parent pair, Offers site b lines c parent pair ∧ c.Disorders parent pair ∧
        halt = ⟨pair.outOfOrder, c.log⟩ := by
  rw [foldlM_eq_error_iff]
  constructor
  · rintro ⟨before, line, after, opened, hsame, hopened, hfails⟩
    obtain ⟨depth, lead, done, item, rest, c, state, rfl, hdone, hbreaks, hhalt⟩ :=
      ((h.addLines hroot hopened).addLine_eq_error_iff hroot).mp hfails
    exact ⟨c, _, _, ⟨before, depth, lead, done, item, rest, after, opened, state, hsame, hopened, hdone, rfl, rfl⟩,
      hbreaks, hhalt⟩
  · rintro ⟨c, _, _, ⟨before, depth, lead, done, item, rest, after, opened, state, hsame, hopened, hdone, rfl, rfl⟩,
      hbreaks, hhalt⟩
    exact ⟨before, _, after, opened, hsame, hopened, ((h.addLines hroot hopened).addLine_eq_error_iff hroot).mpr
      ⟨depth, lead, done, item, rest, c, state, rfl, hdone, hbreaks, hhalt⟩⟩

end Tidy

end Builder

end PairMarkup
