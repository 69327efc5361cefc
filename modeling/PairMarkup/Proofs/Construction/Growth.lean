import PairMarkup.Proofs.Construction.Reading
import PairMarkup.Proofs.Outline.Settled
import PairMarkup.Proofs.Parsing

namespace PairMarkup

open List Kind

/-- The ways in which a pair may have a value. -/
inductive ValueShape where
  /-- A free text. -/
  | free
  | text
  /-- Texts and references that stand in one text. -/
  | parts
  /-- The value of the alias or parameter referred to. -/
  | reference
  /-- Parts that are written as a block. -/
  | gathered
  /-- There is none. -/
  | bare
deriving DecidableEq

/-- The pair without its neighbours and without what it owes to its place. -/
def Pair.told (pair : Pair) : Pair :=
  { pair with kind := pair.kind.unplaced, children := [], parent := none, isChoice := false }

namespace Kind

variable (kind : Kind)

@[simp] theorem isComment_unplaced : kind.unplaced.isComment = kind.isComment := by
  cases kind <;> rfl

@[simp] theorem isNamespaceDefinition_unplaced :
    kind.unplaced.isNamespaceDefinition = kind.isNamespaceDefinition := by
  cases kind <;> rfl

@[simp] theorem isAliasUsage_unplaced : kind.unplaced.isAliasUsage = kind.isAliasUsage := by
  cases kind <;> rfl

@[simp] theorem isParameter_unplaced : kind.unplaced.isParameter = kind.isParameter := by
  cases kind <;> rfl

end Kind

namespace Pair

/-- What is told of two pairs alike is the same in both. -/
structure Alike (a b : Pair) : Prop where
  told_eq : a.told = b.told

variable {a b c : Pair}

namespace Alike

theorem refl (a : Pair) : a.Alike a := ⟨rfl⟩

section

variable (h : a.Alike b)

include h

theorem trans (h' : b.Alike c) : a.Alike c := ⟨h.told_eq.trans h'.told_eq⟩

theorem span_eq : a.span = b.span := (congrArg Pair.span h.told_eq :)

theorem nameSpan_eq : a.nameSpan = b.nameSpan := (congrArg Pair.nameSpan h.told_eq :)

theorem delimiter_eq : a.delimiter = b.delimiter := (congrArg Pair.delimiter h.told_eq :)

theorem value_eq : a.value = b.value := (congrArg Pair.value h.told_eq :)

theorem valueKind_eq : a.valueKind = b.valueKind := (congrArg Pair.valueKind h.told_eq :)

theorem items_eq : a.items = b.items := (congrArg Pair.items h.told_eq :)

theorem unplaced_eq : a.kind.unplaced = b.kind.unplaced := (congrArg Pair.kind h.told_eq :)

theorem isComment_eq : a.kind.isComment = b.kind.isComment := by
  rw [← isComment_unplaced, h.unplaced_eq, isComment_unplaced]

theorem isElement_eq : a.kind.isElement = b.kind.isElement := by
  rw [← isElement_unplaced, h.unplaced_eq, isElement_unplaced]

theorem isAliasUsage_eq : a.kind.isAliasUsage = b.kind.isAliasUsage := by
  rw [← isAliasUsage_unplaced, h.unplaced_eq, isAliasUsage_unplaced]

theorem isParameter_eq : a.kind.isParameter = b.kind.isParameter := by
  rw [← isParameter_unplaced, h.unplaced_eq, isParameter_unplaced]

theorem isNamespaceDefinition_eq : a.kind.isNamespaceDefinition = b.kind.isNamespaceDefinition := by
  rw [← isNamespaceDefinition_unplaced, h.unplaced_eq, isNamespaceDefinition_unplaced]

end

end Alike

end Pair

namespace PairTree

variable {t t' t'' : PairTree} {x : PairId}

/-- Where the value of a pair is, and what that leaves open. -/
def HasShape (t : PairTree) (id : PairId) : ValueShape → Prop
  | .free =>
    (t.get id).delimiter = .doubleEqual ∧ (t.get id).value.isSome = true ∧ (t.get id).items = none ∧
      t.contentChildren id = []
  | .text =>
    (t.get id).delimiter = .equal ∧ (t.get id).value.isSome = true ∧ (t.get id).items = none ∧
      t.contentChildren id = []
  | .parts =>
    (t.get id).delimiter = .equal ∧ (t.get id).value = none ∧ (t.get id).valueKind = .concatenation ∧
      (∃ first more, (t.get id).items = some (first :: more)) ∧ t.contentChildren id = []
  | .reference =>
    (t.get id).delimiter = .equal ∧ (t.get id).value = none ∧ (t.get id).items = none ∧
      (t.get id).valueKind = .pairValue ∧ ∃ child, t.contentChildren id = [child] ∧
        ((t.kind child).isAliasUsage = true ∨ (t.kind child).isParameter = true)
  | .gathered =>
    (t.get id).delimiter = .colonEqual ∧ (t.get id).value = none ∧ (t.get id).items.isSome = true ∧
      (t.get id).valueKind = .concatenation ∧ t.contentChildren id = []
  | .bare =>
    ((t.get id).delimiter = .none ∨ (t.get id).delimiter = .colon ∨ (t.get id).delimiter = .doubleColon ∨
      (t.get id).delimiter = .equalColon) ∧ (t.get id).value = none ∧ (t.get id).items = none

theorem HasShape.unique {a b : ValueShape} (ha : t.HasShape x a) (hb : t.HasShape x b) : a = b := by
  cases a <;> cases b <;> simp only [HasShape] at ha hb <;> simp_all

/-- A text between the references of a value. -/
def IsTextPart (t : PairTree) (id : PairId) : Prop :=
  (t.kind id).isElement = true ∧ ∃ owner, (t.get owner).delimiter = .equal ∧
    ∃ items, (t.get owner).items = some items ∧ id ∈ items

/-- What can be said of a pair before its block is closed: its parts are not gathered yet. -/
structure Draft (t : PairTree) (x : PairId) : Prop where
  shaped : (t.kind x).isComment = true ∨ t.IsTextPart x ∨ (t.get x).delimiter = .colonEqual ∨
    ∃ shape, t.HasShape x shape
  block : (t.get x).delimiter = .colonEqual →
    (t.get x).value = none ∧ (t.get x).items = none ∧ (t.get x).valueKind = .concatenation

/-- Spans of pairs, one behind the other. -/
abbrev SpansInOrder (stop : Position) (t : PairTree) : List Glyph → List PairId → List Glyph → Prop :=
  InOrder fun gs rest id => (t.get id).span.Fills stop gs rest

/-- A pair that was made from what was read between `gs` and `rest`. -/
structure Made (stop : Position) (gs rest : List Glyph) (t : PairTree) (x : PairId) : Prop where
  span : (t.get x).span.LiesIn stop gs rest
  nameSpan : (t.get x).nameSpan.LiesIn stop gs rest
  items : SpansInOrder stop t gs ((t.get x).items.getD []) rest
  draft : t.Draft x

/-- Children are put behind those of a pair. They are comments if the pair takes no others. -/
structure Gains (stop : Position) (gs rest : List Glyph) (t t' : PairTree) (x : PairId)
    (more : List PairId) : Prop where
  children_eq : t'.children x = t.children x ++ more
  new : ∀ c ∈ more, t.size ≤ c ∧ c < t'.size
  inOrder : SpansInOrder stop t' gs more rest
  welcome : x < t.size → ∀ c ∈ more, (t'.kind c).isComment = true ∨ t.acceptsChildren x = true

/-- From `t` to `t'` what was read between `gs` and `rest` was added to the module `root`. -/
structure Adds (stop : Position) (root : PairId) (gs rest : List Glyph) (t t' : PairTree) : Prop where
  size_le : t.size ≤ t'.size
  before : ∀ x, x < root → t'.get x = t.get x
  alike : ∀ x, x < t.size → (t'.get x).Alike (t.get x)
  gains : ∀ x, ∃ more, Gains stop gs rest t t' x more
  made : ∀ x, t.size ≤ x → x < t'.size → Made stop gs rest t' x

variable {stop : Position} {root : PairId} {gs mid rest : List Glyph} {more : List PairId} {shape : ValueShape}

theorem acceptsChildren_eq_of_alike (h : (t'.get x).Alike (t.get x)) :
    t'.acceptsChildren x = t.acceptsChildren x := by
  simp only [acceptsChildren, h.isComment_eq, h.isNamespaceDefinition_eq, h.valueKind_eq, h.delimiter_eq]

theorem lt_size_of_delimiter (h : (t.get x).delimiter ≠ .none) : x < t.size := by
  refine Nat.lt_of_not_le fun hle => h ?_
  rw [get_eq_default hle]
  rfl

namespace SpansInOrder

variable {ids : List PairId} {ids' : List PairId}

theorem congr (h : SpansInOrder stop t gs ids rest) (hids : ∀ c ∈ ids, (t'.get c).span = (t.get c).span) :
    SpansInOrder stop t' gs ids rest := by
  induction ids generalizing gs with
  | nil => exact h
  | cons c ids ih =>
    obtain ⟨mid, hc, hrest⟩ := h
    refine ⟨mid, ?_, ih hrest fun d hd => hids d (mem_cons_of_mem _ hd)⟩
    change (t'.get c).span.Fills stop gs mid
    rw [hids c mem_cons_self]
    exact hc

theorem append (h : SpansInOrder stop t gs ids mid)
    (h' : SpansInOrder stop t mid ids' rest) : SpansInOrder stop t gs (ids ++ ids') rest :=
  InOrder.append h h' Span.Fills.left

section

variable (h : SpansInOrder stop t gs ids rest)

include h

theorem sublist (hsub : ids'.Sublist ids) :
    SpansInOrder stop t gs ids' rest := InOrder.sublist Span.Fills.suffix Span.Fills.left h hsub

theorem of_mem {c : PairId} (hc : c ∈ ids) : (t.get c).span.Fills stop gs rest :=
  @InOrder.of_mem PairId (fun gs rest id => (t.get id).span.Fills stop gs rest) gs rest ids Span.Fills.suffix
    Span.Fills.left Span.Fills.right h c hc

theorem suffix : rest <:+ gs := InOrder.suffix Span.Fills.suffix h

end

theorem mono {gs' rest' : List Glyph} (h : SpansInOrder stop t gs ids rest) (hgs : gs <:+ gs')
    (hrest : rest' <:+ rest) : SpansInOrder stop t gs' ids rest' :=
  (InOrder.of_suffix_left h hgs Span.Fills.left).of_suffix_right hrest

end SpansInOrder

section

variable (h : Gains stop gs rest t t' x more) (halike : ∀ x, x < t.size → (t'.get x).Alike (t.get x))
  (hwf : t.WellFormed)

include h halike hwf

theorem Gains.contentChildren_eq :
    t'.contentChildren x = t.contentChildren x ++ more.filter fun c => !(t'.kind c).isComment := by
  rw [contentChildren, h.children_eq, filter_append, contentChildren]
  congr 1
  refine filter_congr fun c hc => ?_
  have hlt : c < t.size := hwf.held_lt_size (mem_append_left _ hc)
  rw [kind, (halike c hlt).isComment_eq, kind]

/-- Where no more pairs may be put, the content stays as it is. -/
theorem Gains.contentChildren_of_refused (hx : x < t.size)
    (hrefused : t.acceptsChildren x = false) : t'.contentChildren x = t.contentChildren x := by
  have hnone : (more.filter fun c => !(t'.kind c).isComment) = [] := by
    refine filter_eq_nil_iff.mpr fun c hc => ?_
    rcases h.welcome hx c hc with hcomment | haccepts
    · simp [hcomment]
    · rw [hrefused] at haccepts
      cases haccepts
  rw [h.contentChildren_eq halike hwf, hnone, append_nil]

end

theorem acceptsChildren_of_isValue (h : (t.get x).delimiter.isValue) : t.acceptsChildren x = false := by
  simp [acceptsChildren, h]

theorem IsTextPart.of_alike (h : t.IsTextPart x) (halike : ∀ x, x < t.size → (t'.get x).Alike (t.get x))
    (hx : x < t.size) : t'.IsTextPart x := by
  obtain ⟨helement, owner, hdelimiter, items, hitems, hmem⟩ := h
  have howner : owner < t.size := by
    apply lt_size_of_delimiter
    rw [hdelimiter]
    decide
  refine ⟨?_, owner, ?_, items, ?_, hmem⟩
  · rw [kind, (halike x hx).isElement_eq]
    exact helement
  · rw [(halike owner howner).delimiter_eq, hdelimiter]
  · rw [(halike owner howner).items_eq, hitems]

theorem HasShape.imp (h : t.HasShape x shape)
    (hdelimiter : (t'.get x).delimiter = (t.get x).delimiter) (hvalue : (t'.get x).value = (t.get x).value)
    (hitems : (t'.get x).items = (t.get x).items)
    (hkind : (t.get x).delimiter ≠ .none → (t'.get x).valueKind = (t.get x).valueKind)
    (hcontent : (t.get x).delimiter.isValue ∨ (t.get x).delimiter = .colonEqual →
      t'.contentChildren x = t.contentChildren x)
    (husage : ∀ c ∈ t.contentChildren x, (t'.kind c).isAliasUsage = (t.kind c).isAliasUsage ∧
      (t'.kind c).isParameter = (t.kind c).isParameter) : t'.HasShape x shape := by
  cases shape with
  | free =>
    obtain ⟨hfree, hsome, hnone, hchildren⟩ := h
    have hcontent := hcontent (.inl (by rw [hfree]; rfl))
    exact ⟨hdelimiter.trans hfree, by rw [hvalue, hsome], hitems.trans hnone, hcontent.trans hchildren⟩
  | text =>
    obtain ⟨hequal, hsome, hnone, hchildren⟩ := h
    have hcontent := hcontent (.inl (by rw [hequal]; rfl))
    exact ⟨hdelimiter.trans hequal, by rw [hvalue, hsome], hitems.trans hnone, hcontent.trans hchildren⟩
  | parts =>
    obtain ⟨hequal, hnone, hparts, ⟨first, more, hmore⟩, hchildren⟩ := h
    have hcontent := hcontent (.inl (by rw [hequal]; rfl))
    have hkind := hkind (by rw [hequal]; decide)
    exact ⟨hdelimiter.trans hequal, hvalue.trans hnone, hkind.trans hparts, ⟨first, more, hitems.trans hmore⟩,
      hcontent.trans hchildren⟩
  | reference =>
    obtain ⟨hequal, hnone, hnoItems, hpair, child, hchildren, hchild⟩ := h
    have hcontent := hcontent (.inl (by rw [hequal]; rfl))
    have hkind := hkind (by rw [hequal]; decide)
    have hsame := husage child (by rw [hchildren]; exact mem_singleton_self _)
    refine ⟨hdelimiter.trans hequal, hvalue.trans hnone, hitems.trans hnoItems, hkind.trans hpair, child,
      hcontent.trans hchildren, ?_⟩
    rw [hsame.1, hsame.2]
    exact hchild
  | gathered =>
    obtain ⟨hblock, hnone, hsome, hparts, hchildren⟩ := h
    have hkind := hkind (by rw [hblock]; decide)
    exact ⟨hdelimiter.trans hblock, hvalue.trans hnone, by rw [hitems, hsome], hkind.trans hparts,
      (hcontent (.inr hblock)).trans hchildren⟩
  | bare =>
    obtain ⟨hbare, hnone, hnoItems⟩ := h
    rw [← hdelimiter] at hbare
    exact ⟨hbare, hvalue.trans hnone, hitems.trans hnoItems⟩

theorem HasShape.of_alike (h : t.HasShape x shape) (halike : (t'.get x).Alike (t.get x))
    (hcontent : (t.get x).delimiter.isValue ∨ (t.get x).delimiter = .colonEqual →
      t'.contentChildren x = t.contentChildren x)
    (hkinds : ∀ c ∈ t.contentChildren x, (t'.get c).Alike (t.get c)) : t'.HasShape x shape :=
  h.imp halike.delimiter_eq halike.value_eq halike.items_eq (fun _ => halike.valueKind_eq) hcontent fun c hc =>
    ⟨(hkinds c hc).isAliasUsage_eq, (hkinds c hc).isParameter_eq⟩

theorem Draft.of_gains (h : t.Draft x) (hgains : Gains stop gs rest t t' x more)
    (halike : ∀ x, x < t.size → (t'.get x).Alike (t.get x)) (hwf : t.WellFormed) (hx : x < t.size) :
    t'.Draft x := by
  have hsame := halike x hx
  refine ⟨?_, fun hblock => ?_⟩
  · rcases h.shaped with hcomment | htext | hblock | ⟨shape, hshape⟩
    · exact .inl (hsame.isComment_eq.trans hcomment)
    · exact .inr (.inl (htext.of_alike halike hx))
    · exact .inr (.inr (.inl (hsame.delimiter_eq.trans hblock)))
    · by_cases hblock : (t.get x).delimiter = .colonEqual
      · exact .inr (.inr (.inl (hsame.delimiter_eq.trans hblock)))
      · refine .inr (.inr (.inr ⟨shape, hshape.of_alike hsame (fun hvalue => ?_) fun c hc => ?_⟩))
        · rcases hvalue with hvalue | hvalue
          · exact hgains.contentChildren_of_refused halike hwf hx (acceptsChildren_of_isValue hvalue)
          · exact absurd hvalue hblock
        · exact halike c (hwf.held_lt_size (mem_append_left _ (mem_of_mem_filter hc)))
  · rw [hsame.delimiter_eq] at hblock
    rw [hsame.value_eq, hsame.items_eq, hsame.valueKind_eq]
    exact h.block hblock

namespace Adds

theorem refl (root : PairId) (hrest : rest <:+ gs) (t : PairTree) : Adds stop root gs rest t t where
  size_le := le_rfl
  before _ _ := rfl
  alike _ _ := .refl _
  gains x := by
    refine ⟨[], (append_nil _).symm, ?_, hrest, ?_⟩
    · exact fun c hc => absurd hc not_mem_nil
    · exact fun _ c hc => absurd hc not_mem_nil
  made x hx hlt := absurd hlt (not_lt.mpr hx)

/-- What was made stays as it is, apart from children that it may get. -/
theorem keeps_made {gs' : List Glyph} (h : Adds stop root mid rest t t') (hwf : t.WellFormed)
    (hx : x < t.size) (hmade : Made stop gs' mid t x) : Made stop gs' rest t' x := by
  obtain ⟨more, hgains⟩ := h.gains x
  have hsame := h.alike x hx
  have hrest : rest <:+ mid := hgains.inOrder.suffix
  refine ⟨?_, ?_, ?_, hmade.draft.of_gains hgains h.alike hwf hx⟩
  · rw [hsame.span_eq]
    exact hmade.span.mono (suffix_refl _) hrest
  · rw [hsame.nameSpan_eq]
    exact hmade.nameSpan.mono (suffix_refl _) hrest
  · rw [hsame.items_eq]
    refine (hmade.items.mono (suffix_refl _) hrest).congr fun c hc => ?_
    exact (h.alike c (hwf.held_lt_size (mem_append_right _ hc))).span_eq

theorem trans (h : Adds stop root gs mid t t') (h' : Adds stop root mid rest t' t'')
    (hwf : t'.WellFormed) : Adds stop root gs rest t t'' where
  size_le := h.size_le.trans h'.size_le
  before x hx := (h'.before x hx).trans (h.before x hx)
  alike x hx := (h'.alike x (hx.trans_le h.size_le)).trans (h.alike x hx)
  gains x := by
    obtain ⟨more, hmore⟩ := h.gains x
    obtain ⟨more', hmore'⟩ := h'.gains x
    refine ⟨more ++ more', ?_, ?_, ?_, ?_⟩
    · rw [hmore'.children_eq, hmore.children_eq, append_assoc]
    · intro c hc
      rcases mem_append.mp hc with hc | hc
      · exact (hmore.new c hc).imp_right fun hlt => hlt.trans_le h'.size_le
      · exact (hmore'.new c hc).imp_left (h.size_le.trans)
    · exact (hmore.inOrder.congr fun c hc => (h'.alike c (hmore.new c hc).2).span_eq).append hmore'.inOrder
    · intro hx c hc
      rcases mem_append.mp hc with hc | hc
      · rw [kind, (h'.alike c (hmore.new c hc).2).isComment_eq]
        exact hmore.welcome hx c hc
      · rw [← acceptsChildren_eq_of_alike (h.alike x hx)]
        exact hmore'.welcome (hx.trans_le h.size_le) c hc
  made x hx hlt := by
    obtain ⟨more, hmore⟩ := h.gains x
    rcases lt_or_ge x t'.size with hold | hnew
    · exact h'.keeps_made hwf hold (h.made x hx hold)
    · obtain ⟨hspan, hname, hitems, hdraft⟩ := h'.made x hnew hlt
      have hmid : mid <:+ gs := hmore.inOrder.suffix
      exact ⟨hspan.mono hmid (suffix_refl _), hname.mono hmid (suffix_refl _),
        hitems.mono hmid (suffix_refl _), hdraft⟩

end Adds

end PairTree

end PairMarkup
