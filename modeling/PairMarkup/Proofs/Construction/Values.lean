import PairMarkup.Proofs.Construction.Adding

namespace PairMarkup

open List PairTree

def Segment.isReference : Segment → Bool
  | text _ _ => false
  | reference _ => true

/-- The pair that stands for a part of a value. -/
def Segment.Shows (site : Site) (owner : PairId) (pair : Pair) : Segment → Prop
  | text content span =>
    pair = { Pair.bare .element span site.file site.fileIndex with
      value := some content
      valueKind := .doubleQuoted }
  | reference found =>
    ∃ tree, pair = site.format.makePair site.file site.fileIndex tree ⟨owner, true, false⟩ found.head

theorem Kind.isComment_of_isUsage {kind : Kind} (h : kind.isAliasUsage ∨ kind.isParameter) :
    kind.isComment = false := by
  cases kind <;> first | rfl | simp [isAliasUsage, isParameter] at h

variable (format : Format) (file : String) (fileIndex : Nat) (tree : PairTree) {head : Head} {stop : Position}
  {rest gs : List Glyph}

/-- What a reference in a value makes is an alias usage or a parameter. -/
theorem makePair_isUsage (owner : PairId) (found : Reference) :
    (format.makePair file fileIndex tree ⟨owner, true, false⟩ found.head).kind.isAliasUsage ∨
      (format.makePair file fileIndex tree ⟨owner, true, false⟩ found.head).kind.isParameter := by
  change (format.interpret tree ⟨owner, true, false⟩ found.head).1.isAliasUsage = true ∨
    (format.interpret tree ⟨owner, true, false⟩ found.head).1.isParameter = true
  obtain ⟨_ | _, name, span⟩ := found
  · exact .inr rfl
  · exact .inl rfl

theorem makePair_nameSpan_liesIn (setting : Setting) (hspan : head.span.LiesIn stop gs rest)
    (hname : ∀ name, head.name = some name → name.span.LiesIn stop gs rest) :
    (format.makePair file fileIndex tree setting head).nameSpan.LiesIn stop gs rest := by
  change ((head.name.map (·.span)).getD head.span).LiesIn stop gs rest
  cases hfound : head.name with
  | none => exact hspan
  | some name => exact hname name hfound

theorem Segment.LieIn.span {parts : List Segment}
    (h : Segment.LieIn stop gs rest parts) {part : Segment} (hpart : part ∈ parts) :
    part.span.LiesIn stop gs rest := by
  have hfills := @InOrder.of_mem Segment (fun gs rest part => part.span.Fills stop gs rest) gs rest parts
    Span.Fills.suffix Span.Fills.left Span.Fills.right h.1 part hpart
  exact Span.Fills.liesIn hfills

/-- The pair without what a value makes of it. -/
def Pair.heading (pair : Pair) : Pair := { pair with children := [], items := none, valueKind := .none }

namespace PairTree

variable {x : PairId} {mid : PairTree}
  {stop : Position} {gs rest : List Glyph} {site : Site} {owner : PairId} {t t' : PairTree}
  {parts : List Segment} {ids : List PairId} {part : Segment} {pair : Pair}

/-- The pairs `ids` stand for the parts of a value. -/
def ShowsAll (site : Site) (owner : PairId) (t : PairTree) : List Segment → List PairId → Prop :=
  List.Forall₂ fun part id => id < t.size ∧ part.Shows site owner (t.get id)

/-- Nothing but pairs for the parts of a value is new. -/
structure Shows (site : Site) (owner : PairId) (parts : List Segment) (ids : List PairId)
    (t t' : PairTree) : Prop where
  size_le : t.size ≤ t'.size
  get_eq : ∀ x, x < t.size → t'.get x = t.get x
  all : ShowsAll site owner t' parts ids
  mem_of_new : ∀ x, t.size ≤ x → x < t'.size → x ∈ ids

theorem ShowsAll.imp (h : ShowsAll site owner t parts ids) (hsize : t.size ≤ t'.size)
    (hget : ∀ x, x < t.size → t'.get x = t.get x) : ShowsAll site owner t' parts ids := by
  refine List.Forall₂.imp (fun part id hid => ⟨hid.1.trans_le hsize, ?_⟩) h
  rw [hget id hid.1]
  exact hid.2

namespace Shows

theorem nil (site : Site) (owner : PairId) (t : PairTree) : Shows site owner [] [] t t where
  size_le := le_rfl
  get_eq _ _ := rfl
  all := .nil
  mem_of_new _ hx hlt := absurd hlt (not_lt.mpr hx)

theorem cons {part : Segment} {pair : Pair} (hpair : part.Shows site owner pair)
    (h : Shows site owner parts ids (t.add pair).2 t') :
    Shows site owner (part :: parts) (t.size :: ids) t t' where
  size_le := (lt_size_add t pair).le.trans h.size_le
  get_eq x hx := (h.get_eq x (hx.trans (lt_size_add t pair))).trans (get_add_of_ne t pair hx.ne)
  all := by
    refine .cons ⟨(lt_size_add t pair).trans_le h.size_le, ?_⟩ h.all
    rw [h.get_eq _ (lt_size_add t pair), get_add_self]
    exact hpair
  mem_of_new x hx hlt := by
    rcases Nat.eq_or_lt_of_le hx with rfl | hnew
    · exact mem_cons_self
    · refine mem_cons_of_mem _ (h.mem_of_new x ?_ hlt)
      rw [size_add]
      exact hnew

/-- Pairs for all parts are made, those of some of them first. -/
theorem trans {mid : PairTree} {before : List Segment} {ids' : List PairId}
    (h : Shows site owner before ids t mid) (h' : Shows site owner parts ids' mid t') (hsub : ids ⊆ ids') :
    Shows site owner parts ids' t t' where
  size_le := h.size_le.trans h'.size_le
  get_eq x hx := (h'.get_eq x (hx.trans_le h.size_le)).trans (h.get_eq x hx)
  all := h'.all
  mem_of_new x hx hlt := by
    rcases lt_or_ge x mid.size with hold | hnew
    · exact hsub (h.mem_of_new x hx hold)
    · exact h'.mem_of_new x hnew hlt

end Shows

section

variable (h : ShowsAll site owner t parts ids)

include h

theorem ShowsAll.spansInOrder
    (hparts : InOrder (fun gs rest (part : Segment) => part.span.Fills stop gs rest) gs parts rest) :
    SpansInOrder stop t gs ids rest := by
  induction h generalizing gs with
  | nil => exact hparts
  | @cons part id parts ids hid _ ih =>
    obtain ⟨mid, hpart, hparts⟩ := hparts
    refine ⟨mid, ?_, ih hparts⟩
    have hspan : (t.get id).span = part.span := by
      cases part with
      | text content span => exact congrArg Pair.span hid.2
      | reference head =>
        obtain ⟨tree, hpair⟩ := hid.2
        exact congrArg Pair.span hpair
    change (t.get id).span.Fills stop gs mid
    rw [hspan]
    exact hpart

theorem ShowsAll.exists_part (hx : x ∈ ids) : ∃ part ∈ parts, part.Shows site owner (t.get x) := by
  induction h with
  | nil => cases hx
  | @cons part id parts ids hid _ ih =>
    rcases mem_cons.mp hx with rfl | hx
    · exact ⟨part, mem_cons_self, hid.2⟩
    · obtain ⟨part, hpart, hshows⟩ := ih hx
      exact ⟨part, mem_cons_of_mem _ hpart, hshows⟩

theorem ShowsAll.lt_size (hx : x ∈ ids) : x < t.size := by
  induction h with
  | nil => cases hx
  | cons hid _ ih =>
    rcases mem_cons.mp hx with rfl | hx
    · exact hid.1
    · exact ih hx

end

theorem ShowsAll.eq_singleton (h : ShowsAll site owner t [part] ids) :
    ∃ id, ids = [id] ∧ part.Shows site owner (t.get id) := by
  obtain _ | ⟨hid, hrest⟩ := h
  cases hrest
  exact ⟨_, rfl, hid.2⟩

theorem ShowsAll.exists_cons (h : ShowsAll site owner t parts ids) (hparts : parts ≠ []) :
    ∃ first more, ids = first :: more := by
  cases h with
  | nil => exact absurd rfl hparts
  | cons _ _ => exact ⟨_, _, rfl⟩

/-- A pair that has got no value yet and nothing below it. -/
structure Vacant (t : PairTree) (owner : PairId) : Prop where
  lt_size : owner < t.size
  value_eq : (t.get owner).value = none
  items_eq : (t.get owner).items = none
  children_eq : (t.get owner).children = []

/-- A pair that is part of a value. -/
structure Part (stop : Position) (gs rest : List Glyph) (t : PairTree) (x : PairId) : Prop where
  span : (t.get x).span.LiesIn stop gs rest
  nameSpan : (t.get x).nameSpan.LiesIn stop gs rest
  items_eq : (t.get x).items = none
  children_eq : (t.get x).children = []
  draft : t.Draft x

/-- A value is given to `owner`, and nothing else changes. -/
structure Values (stop : Position) (gs rest : List Glyph) (owner : PairId) (t t' : PairTree) : Prop where
  size_le : t.size ≤ t'.size
  others : ∀ x, x < t.size → x ≠ owner → t'.get x = t.get x
  kind_eq : t'.kind owner = t.kind owner
  span_eq : (t'.get owner).span = (t.get owner).span
  nameSpan_eq : (t'.get owner).nameSpan = (t.get owner).nameSpan
  new : ∀ c ∈ (t'.get owner).held, t.size ≤ c ∧ c < t'.size
  children : SpansInOrder stop t' gs (t'.children owner) rest
  items : SpansInOrder stop t' gs ((t'.get owner).items.getD []) rest
  draft : t'.Draft owner
  parts : ∀ x, t.size ≤ x → x < t'.size → Part stop gs rest t' x

theorem contentChildren_eq_nil (h : (t.get x).children = []) : t.contentChildren x = [] := by
  rw [contentChildren, children, h]
  rfl

theorem isValue_cases {delimiter : Delimiter} (h : delimiter.isValue) :
    delimiter = .equal ∨ delimiter = .doubleEqual := by
  cases delimiter <;> first | exact .inl rfl | exact .inr rfl | cases h

theorem Vacant.values (h : t.Vacant owner) (hdelimiter : (t.get owner).delimiter.isValue = false)
    (hkind : (t.get owner).delimiter = .colonEqual → (t.get owner).valueKind = .concatenation)
    (hrest : rest <:+ gs) : Values stop gs rest owner t t where
  size_le := le_rfl
  others _ _ _ := rfl
  kind_eq := rfl
  span_eq := rfl
  nameSpan_eq := rfl
  new c hc := by
    rw [Pair.held, h.children_eq, h.items_eq] at hc
    cases hc
  children := by
    rw [children, h.children_eq]
    exact hrest
  items := by
    rw [h.items_eq]
    exact hrest
  draft := by
    refine ⟨?_, fun hblock => ⟨h.value_eq, h.items_eq, hkind hblock⟩⟩
    by_cases hblock : (t.get owner).delimiter = .colonEqual
    · exact .inr (.inr (.inl hblock))
    · refine .inr (.inr (.inr ⟨.bare, ?_, h.value_eq, h.items_eq⟩))
      cases hfound : (t.get owner).delimiter <;> simp_all [Delimiter.isValue]
  parts _ hx hlt := absurd hlt (not_lt.mpr hx)

/-- The pair for a part is a part of the value, once `owner` lists it. -/
theorem Part.of_shows (hx : part.Shows site owner pair)
    (hself : t.get x = { pair with parent := some owner }) (hspan : part.span.LiesIn stop gs rest)
    (hreference : ∀ found, part = .reference found → ∀ name, found.name = some name → name.span.LiesIn stop gs rest)
    (htext : ∀ content span, part = .text content span → (t.get owner).delimiter = .equal ∧ ∃ items,
      (t.get owner).items = some items ∧ x ∈ items) :
    Part stop gs rest t x := by
  cases part with
  | text content span =>
    cases hx
    obtain ⟨hdelimiter, hitems⟩ := htext content span rfl
    refine ⟨?_, ?_, ?_, ?_, .inr (.inl ⟨?_, owner, hdelimiter, hitems⟩), fun hblock => ?_⟩
    · rw [hself]
      exact hspan
    · rw [hself]
      exact hspan
    · rw [hself]
      rfl
    · rw [hself]
      rfl
    · rw [kind, hself]
      rfl
    · rw [hself] at hblock
      cases hblock
  | reference found =>
    obtain ⟨tree, rfl⟩ := hx
    refine ⟨?_, ?_, ?_, ?_, .inr (.inr (.inr ⟨.bare, .inl ?_, ?_, ?_⟩)), fun hblock => ?_⟩
    · rw [hself]
      exact hspan
    · rw [hself]
      exact makePair_nameSpan_liesIn site.format site.file site.fileIndex tree ⟨owner, true, false⟩ hspan
        (hreference found rfl)
    · rw [hself]
      rfl
    · rw [hself]
      rfl
    · rw [hself]
      rfl
    · rw [hself]
      rfl
    · rw [hself]
      rfl
    · rw [hself] at hblock
      cases hblock

/-- A pair has a value in good order, once the pairs for its parts are its only child or its items. -/
theorem ShowsAll.draft_owner (h : ShowsAll site owner mid parts ids) (hequal : (t.get owner).delimiter = .equal)
    (hvalue : (t.get owner).value = none)
    (hkinds : ∀ id ∈ ids, t.kind id = mid.kind id)
    (hform : ((t.get owner).children = ids ∧ (t.get owner).items = none ∧ (t.get owner).valueKind = .pairValue ∧
      ∃ head, parts = [.reference head]) ∨ ((t.get owner).children = [] ∧ (t.get owner).items = some ids ∧
      (t.get owner).valueKind = .concatenation ∧ parts ≠ [])) :
    t.Draft owner := by
  refine ⟨.inr (.inr (.inr ?_)), fun hblock => ?_⟩
  · rcases hform with ⟨hcs, hitems, hkind, head, rfl⟩ | ⟨hcs, hitems, hkind, hparts⟩
    · obtain ⟨id, rfl, tree, hid⟩ := h.eq_singleton
      have husage := makePair_isUsage site.format site.file site.fileIndex tree owner head
      rw [← hid] at husage
      have hidKind : t.kind id = (mid.get id).kind := hkinds id (mem_singleton_self id)
      refine ⟨.reference, hequal, hvalue, hitems, hkind, id, ?_, hidKind ▸ husage⟩
      rw [contentChildren, children, hcs, filter_cons_of_pos]
      · rfl
      · rw [hidKind, Bool.not_eq_true']
        exact Kind.isComment_of_isUsage husage
    · obtain ⟨first, more, rfl⟩ := h.exists_cons hparts
      exact ⟨.parts, hequal, hvalue, hkind, ⟨first, more, hitems⟩, contentChildren_eq_nil hcs⟩
  · cases hequal.symm.trans hblock

/-- The parts of a value are put below `owner`: a single reference as its child, or else all of them as
    its items. -/
theorem Shows.values (hshows : Shows site owner parts ids t mid) (h : t.Vacant owner)
    (hdelimiter : (t.get owner).delimiter = .equal) (hnew : ∀ c ∈ ids, t.size ≤ c)
    (hlies : Segment.LieIn stop gs rest parts) {f : Pair → Pair}
    (hf : ∀ pair, (f pair).heading = pair.heading)
    (hform : ((f (t.get owner)).children = ids ∧ (f (t.get owner)).items = none ∧
      (f (t.get owner)).valueKind = .pairValue ∧ ∃ head, parts = [.reference head]) ∨
      ((f (t.get owner)).children = [] ∧ (f (t.get owner)).items = some ids ∧
      (f (t.get owner)).valueKind = .concatenation ∧ parts ≠ [])) :
    Values stop gs rest owner t ((mid.setParents ids (some owner)).modify owner f) := by
  have hne : ∀ x, t.size ≤ x → x ≠ owner := fun x hx => (h.lt_size.trans_le hx).ne'
  have hself : ((mid.setParents ids (some owner)).modify owner f).get owner = f (t.get owner) := by
    rw [get_modify_self, get_setParents, if_neg fun hmem => hne owner (hnew owner hmem.1) rfl,
      hshows.get_eq owner h.lt_size]
    rw [size_setParents]
    exact h.lt_size.trans_le hshows.size_le
  have hothers : ∀ x, x ≠ owner → ((mid.setParents ids (some owner)).modify owner f).get x =
      if x ∈ ids ∧ x < mid.size then { mid.get x with parent := some owner } else mid.get x := by
    intro x hx
    rw [get_modify_of_ne hx, get_setParents]
  have hsize : ((mid.setParents ids (some owner)).modify owner f).size = mid.size := by
    rw [size_modify, size_setParents]
  generalize (mid.setParents ids (some owner)).modify owner f = t' at hself hothers hsize ⊢
  rw [← hself] at hform
  have hheading : (t'.get owner).heading = (t.get owner).heading := by rw [hself, hf]
  have hpart : ∀ x, t.size ≤ x → x < mid.size → t'.get x = { mid.get x with parent := some owner } := by
    intro x hx hlt
    rw [hothers x (hne x hx), if_pos ⟨hshows.mem_of_new x hx hlt, hlt⟩]
  have hequal : (t'.get owner).delimiter = .equal := (congrArg Pair.delimiter hheading).trans hdelimiter
  have hvalue : (t'.get owner).value = none := (congrArg Pair.value hheading).trans h.value_eq
  have hrest : rest <:+ gs := InOrder.suffix Span.Fills.suffix hlies.1
  have hspans : SpansInOrder stop t' gs ids rest := by
    refine (hshows.all.spansInOrder hlies.1).congr fun c hc => ?_
    rw [hpart c (hnew c hc) (hshows.all.lt_size hc)]
  refine ⟨hsize ▸ hshows.size_le, fun x hx hxne => ?_, (congrArg Pair.kind hheading :),
    (congrArg Pair.span hheading :), (congrArg Pair.nameSpan hheading :), fun c hc => ?_, ?_, ?_, ?_,
    fun x hx hlt => ?_⟩
  · rw [hothers x hxne, if_neg fun hmem => not_lt.mpr (hnew x hmem.1) hx, hshows.get_eq x hx]
  · have hmem : c ∈ ids := by
      rcases hform with ⟨hcs, hitems, -, -⟩ | ⟨hcs, hitems, -, -⟩
      · rwa [Pair.held, hcs, hitems, Option.getD_none, append_nil] at hc
      · rwa [Pair.held, hcs, hitems] at hc
    exact ⟨hnew c hmem, hsize ▸ hshows.all.lt_size hmem⟩
  · rw [children]
    rcases hform with ⟨hcs, -, -, -⟩ | ⟨hcs, -, -, -⟩ <;> rw [hcs]
    · exact hspans
    · exact hrest
  · rcases hform with ⟨-, hitems, -, -⟩ | ⟨-, hitems, -, -⟩ <;> rw [hitems]
    · exact hrest
    · exact hspans
  · refine hshows.all.draft_owner hequal hvalue (fun id hid => ?_) hform
    rw [kind, hpart id (hnew id hid) (hshows.all.lt_size hid)]
    rfl
  · rw [hsize] at hlt
    have hmem := hshows.mem_of_new x hx hlt
    obtain ⟨part, hmemPart, hshown⟩ := hshows.all.exists_part hmem
    refine .of_shows hshown (hpart x hx hlt) (hlies.span hmemPart) ?_ ?_
    · rintro head rfl
      exact hlies.2 head hmemPart
    · rintro content span rfl
      refine ⟨hequal, ?_⟩
      rcases hform with ⟨-, -, -, head, rfl⟩ | ⟨-, hitems, -, -⟩
      · cases mem_singleton.mp hmemPart
      · exact ⟨ids, hitems, hmem⟩

theorem Draft.respan (h : t.Draft x) (id : PairId) (f : Pair → Span) :
    (t.modify id fun pair => { pair with span := f pair }).Draft x := by
  have hkeep : ∀ {α : Type} (g : Pair → α), (∀ pair span, g { pair with span } = g pair) →
      ∀ x, g ((t.modify id fun pair => { pair with span := f pair }).get x) = g (t.get x) :=
    fun g hg x => modify_eq_of_keeps g t id x fun pair => hg pair _
  have hkind : ∀ x, (t.modify id fun pair => { pair with span := f pair }).kind x = t.kind x :=
    hkeep Pair.kind fun _ _ => rfl
  have hcontent : (t.modify id fun pair => { pair with span := f pair }).contentChildren x = t.contentChildren x :=
    contentChildren_modify id x (fun _ => rfl) fun _ => rfl
  obtain ⟨hshaped, hblock⟩ := h
  refine ⟨?_, ?_⟩
  · rcases hshaped with hcomment | ⟨helement, owner, hdelimiter, items, hitems, hmem⟩ | hblock | ⟨shape, hshape⟩
    · exact .inl (hkind x ▸ hcomment)
    · refine .inr (.inl ⟨hkind x ▸ helement, owner, ?_, items, ?_, hmem⟩)
      · rw [hkeep Pair.delimiter fun _ _ => rfl, hdelimiter]
      · rw [hkeep Pair.items fun _ _ => rfl, hitems]
    · refine .inr (.inr (.inl ?_))
      rw [hkeep Pair.delimiter fun _ _ => rfl, hblock]
    · refine .inr (.inr (.inr ⟨shape, hshape.imp ?_ ?_ ?_ ?_ (fun _ => hcontent) fun c _ => ?_⟩))
      · exact hkeep Pair.delimiter (fun _ _ => rfl) x
      · exact hkeep Pair.value (fun _ _ => rfl) x
      · exact hkeep Pair.items (fun _ _ => rfl) x
      · exact fun _ => hkeep Pair.valueKind (fun _ _ => rfl) x
      · rw [hkind]
        exact ⟨rfl, rfl⟩
  · rw [hkeep Pair.delimiter fun _ _ => rfl, hkeep Pair.value fun _ _ => rfl, hkeep Pair.items fun _ _ => rfl,
      hkeep Pair.valueKind fun _ _ => rfl]
    exact hblock

theorem children_eq_nil (h : t.size ≤ x) : t.children x = [] := by
  rw [children, get_eq_default h]
  rfl

theorem made_of_isHolder (h : (t.get x).IsHolder stop gs rest) (hrest : rest <:+ gs) : Made stop gs rest t x := by
  refine ⟨h.span, h.nameSpan, ?_, .inr (.inr (.inr ⟨.bare, ?_, h.value_eq, h.items_eq⟩)), fun hblock => ?_⟩
  · rw [h.items_eq]
    exact hrest
  · exact h.delimiter_eq.imp_right .inl
  · rcases h.delimiter_eq with hnone | hcolon
    · cases hnone.symm.trans hblock
    · cases hcolon.symm.trans hblock

/-- A new pair is put somewhere, gets its value, and then has another span. All that was hung up on the
    way has the span that the pair had first. -/
structure Lodged (stop : Position) (root : PairId) (gs rest : List Glyph) (pair : Pair) (span : Span)
    (more : PairId → List PairId) (t mid t' tree : PairTree) : Prop where
  hangs : Hangs root (·.IsHolder stop gs rest) more (t.add pair).2 mid
  one : ∀ x, more x = [] ∨ ∃ c, more x = [c] ∧ (c = t.size ∨ (t.add pair).2.size ≤ c) ∧ c < mid.size ∧
    (mid.get c).span = pair.span
  values : Values stop gs rest t.size mid t'
  size_eq : tree.size = t'.size
  owner : tree.get t.size = { t'.get t.size with span }
  others : ∀ x, x ≠ t.size → tree.get x = t'.get x
  draft : ∀ x, t'.Draft x → tree.Draft x
  fills : pair.span.Fills stop gs rest
  named : pair.nameSpan.LiesIn stop gs rest
  ends : span.Fills stop gs rest

namespace Lodged

variable {root : PairId} {pair : Pair} {span : Span} {more : PairId → List PairId} {mid tree : PairTree}
  {x c : PairId} (h : Lodged stop root gs rest pair span more t mid t' tree)

include h

theorem size_lt_mid : t.size < mid.size := (lt_size_add t pair).trans_le h.hangs.size_le

theorem get_of_lodged (hx : x < mid.size) (hne : x ≠ t.size) : tree.get x = mid.get x :=
  (h.others x hne).trans (h.values.others x hx hne)

theorem held_ne (hc : c ∈ (t'.get t.size).held) : c ≠ t.size := (h.size_lt_mid.trans_le (h.values.new c hc).1).ne'

/-- What is hung up is the new pair itself, or a holder that was made for it. -/
theorem mem_more (hc : c ∈ more x) : (t.size ≤ c ∧ c < tree.size) ∧ (tree.get c).span.Fills stop gs rest ∧
    tree.kind c = mid.kind c := by
  have hadd := lt_size_add t pair
  rcases h.one x with hnone | ⟨d, hd, hnew, hlt, hdspan⟩
  · rw [hnone] at hc
    cases hc
  · rw [hd] at hc
    cases mem_singleton.mp hc
    have hltTree : c < tree.size := h.size_eq ▸ hlt.trans_le h.values.size_le
    rcases hnew with rfl | hle
    · refine ⟨⟨le_rfl, hltTree⟩, ?_, ?_⟩
      · rw [h.owner]
        exact h.ends
      · rw [kind, h.owner]
        exact h.values.kind_eq
    · have hsame := h.get_of_lodged hlt (hadd.trans_le hle).ne'
      refine ⟨⟨(hadd.trans_le hle).le, hltTree⟩, ?_, ?_⟩
      · rw [hsame, hdspan]
        exact h.fills
      · rw [kind, hsame, kind]

/-- The new pair has the children that came with its value. -/
theorem gains_owner : Gains stop gs rest t tree t.size (tree.children t.size) := by
  have hchildren : tree.children t.size = t'.children t.size := by
    rw [children, h.owner, children]
  refine ⟨?_, fun c hc => ?_, ?_, fun hlt => absurd hlt (lt_irrefl _)⟩
  · rw [children_eq_nil le_rfl, nil_append]
  · rw [hchildren] at hc
    have hc := h.values.new c (mem_append_left _ hc)
    exact ⟨h.size_lt_mid.le.trans hc.1, h.size_eq ▸ hc.2⟩
  · rw [hchildren]
    exact h.values.children.congr fun c hc => by rw [h.others c (h.held_ne (mem_append_left _ hc))]

theorem gains_lodged (hx : x < mid.size) (hne : x ≠ t.size) : Gains stop gs rest t tree x (more x) := by
  refine ⟨?_, fun c hc => (h.mem_more hc).1, ?_, fun hlt c hc => ?_⟩
  · rw [children, h.get_of_lodged hx hne]
    refine (h.hangs.children_eq x).trans ?_
    rw [children, get_add_of_ne t pair hne, children]
  · rcases h.one x with hnone | ⟨c, hc, -⟩
    · rw [hnone]
      exact h.fills.suffix
    · rw [hc]
      refine .singleton (h.mem_more (x := x) ?_).2.1
      rw [hc]
      exact mem_singleton_self c
  · rw [(h.mem_more hc).2.2, acceptsChildren, ← get_add_of_ne t pair hne]
    exact h.hangs.welcome x (hlt.trans (lt_size_add t pair)) c hc

theorem gains_part (hx : mid.size ≤ x) : Gains stop gs rest t tree x [] := by
  have hne : x ≠ t.size := (h.size_lt_mid.trans_le hx).ne'
  refine ⟨?_, fun c hc => absurd hc not_mem_nil, h.fills.suffix, fun _ c hc => absurd hc not_mem_nil⟩
  rw [append_nil, children_eq_nil (h.size_lt_mid.le.trans hx)]
  rcases lt_or_ge x t'.size with hlt | hle
  · rw [children, h.others x hne]
    exact (h.values.parts x hx hlt).children_eq
  · exact children_eq_nil (h.size_eq ▸ hle)

theorem made_owner : Made stop gs rest tree t.size := by
  have halike := h.hangs.alike t.size (lt_size_add t pair)
  rw [get_add_self] at halike
  refine ⟨?_, ?_, ?_, h.draft _ h.values.draft⟩
  · rw [h.owner]
    exact h.ends.liesIn
  · rw [h.owner]
    exact (h.values.nameSpan_eq.trans halike.nameSpan_eq) ▸ h.named
  · rw [h.owner]
    exact h.values.items.congr fun c hc => by rw [h.others c (h.held_ne (mem_append_right _ hc))]

theorem made_other (hx : t.size ≤ x) (hne : x ≠ t.size) (hlt : x < tree.size) : Made stop gs rest tree x := by
  rcases lt_or_ge x mid.size with hlt' | hle
  · refine made_of_isHolder ?_ h.fills.suffix
    rw [h.get_of_lodged hlt' hne]
    refine h.hangs.fits x ?_ hlt'
    rw [size_add]
    exact lt_of_le_of_ne hx (Ne.symm hne)
  · obtain ⟨hspan, hname, hitems, -, hdraft⟩ := h.values.parts x hle (h.size_eq ▸ hlt)
    refine ⟨?_, ?_, ?_, h.draft x hdraft⟩
    · rw [h.others x hne]
      exact hspan
    · rw [h.others x hne]
      exact hname
    · rw [h.others x hne, hitems]
      exact h.fills.suffix

theorem adds (hroot : root ≤ t.size) : Adds stop root gs rest t tree := by
  have hadd := lt_size_add t pair
  have hmid := h.size_lt_mid
  refine ⟨?_, fun x hx => ?_, fun x hx => ?_, fun x => ?_, fun x hx hlt => ?_⟩
  · rw [h.size_eq]
    exact (hmid.trans_le h.values.size_le).le
  · have hne := (hx.trans_le hroot).ne
    rw [h.get_of_lodged ((hx.trans_le hroot).trans hmid) hne, h.hangs.before x hx, get_add_of_ne t pair hne]
  · have hne := hx.ne
    rw [h.get_of_lodged (hx.trans hmid) hne, ← get_add_of_ne t pair hne]
    exact h.hangs.alike x (hx.trans hadd)
  · by_cases hx : x = t.size
    · rw [hx]
      exact ⟨_, h.gains_owner⟩
    · rcases lt_or_ge x mid.size with hlt | hle
      · exact ⟨_, h.gains_lodged hlt hx⟩
      · exact ⟨_, h.gains_part hle⟩
  · by_cases hx' : x = t.size
    · rw [hx']
      exact h.made_owner
    · exact h.made_other hx hx' hlt

end Lodged

/-- A new pair is put somewhere, gets its value, and then ends where that ends. -/
theorem Values.adds {root : PairId} {more : PairId → List PairId} {last : Position}
    (hvalues : Values stop gs rest t.size mid t')
    (hhangs : Hangs root (·.IsHolder stop gs rest) more (t.add pair).2 mid)
    (hmore : ∀ x, more x = [] ∨ ∃ c, more x = [c] ∧ (c = t.size ∨ (t.add pair).2.size ≤ c) ∧ c < mid.size ∧
      (mid.get c).span = pair.span)
    (hroot : root ≤ t.size) (hspan : pair.span.Fills stop gs rest) (hname : pair.nameSpan.LiesIn stop gs rest)
    (hlast : Span.Fills stop gs rest ⟨pair.span.start, last⟩) : Adds stop root gs rest t
      (t'.modify t.size fun pair => { pair with span := ⟨pair.span.start, last⟩ }) := by
  have hadd := lt_size_add t pair
  have hnew := (hadd.trans_le hhangs.size_le).trans_le hvalues.size_le
  have halike := hhangs.alike t.size hadd
  rw [get_add_self] at halike
  refine Lodged.adds ⟨hhangs, hmore, hvalues, size_modify .., ?_, fun x hx => get_modify_of_ne hx _,
    fun x hx => hx.respan t.size _, hspan, hname, hlast⟩ hroot
  rw [get_modify_self hnew, hvalues.span_eq, halike.span_eq]

end PairTree

namespace Builder

open PairTree

variable {stop : Position} {modules : List PairId} {site : Site} {gs rest : List Glyph} {b b' : Builder}
  {owner : PairId} {item : PairItem} {parts : List Segment}

theorem addReferences_shows (b : Builder) (site : Site) (owner : PairId) (parts : List Segment) :
    Shows site owner (parts.filter Segment.isReference) (b.addReferences site owner parts).1 b.tree
      (b.addReferences site owner parts).2.tree := by
  induction parts generalizing b with
  | nil => exact .nil site owner b.tree
  | cons part parts ih =>
    cases part with
    | text content span => exact ih b
    | reference head => exact .cons ⟨b.tree, rfl⟩ (ih _)

theorem addTexts_shows {references : List PairId}
    (hreferences : ShowsAll site owner b.tree (parts.filter Segment.isReference) references) :
    Shows site owner parts (b.addTexts site parts references).1 b.tree (b.addTexts site parts references).2.tree ∧
      references ⊆ (b.addTexts site parts references).1 := by
  induction parts generalizing b references with
  | nil =>
    cases hreferences
    exact ⟨.nil site owner b.tree, List.Subset.refl _⟩
  | cons part parts ih =>
    cases part with
    | text content span =>
      have hkept : ∀ pair, ShowsAll site owner (b.add pair).2.tree (parts.filter Segment.isReference)
          references := fun pair => ShowsAll.imp hreferences (lt_size_add b.tree pair).le fun x hx =>
        get_add_of_ne b.tree pair hx.ne
      obtain ⟨hshows, hsub⟩ := ih (hkept _)
      exact ⟨.cons rfl hshows, List.Subset.trans hsub (subset_cons_self _ _)⟩
    | reference head =>
      cases references with
      | nil => cases hreferences
      | cons reference references =>
        obtain ⟨hreference, hreferences⟩ := forall₂_cons.mp hreferences
        obtain ⟨hshows, hsub⟩ := ih hreferences
        refine ⟨⟨hshows.size_le, hshows.get_eq, .cons ?_ hshows.all, fun x hx hlt => ?_⟩, ?_⟩
        · refine ⟨hreference.1.trans_le hshows.size_le, ?_⟩
          change Segment.Shows site owner ((b.addTexts site parts references).2.tree.get reference) _
          rw [hshows.get_eq reference hreference.1]
          exact hreference.2
        · exact mem_cons_of_mem _ (hshows.mem_of_new x hx hlt)
        · exact cons_subset_cons _ hsub

theorem setText_values (h : b.tree.Vacant owner) (hdelimiter : (b.tree.get owner).delimiter.isValue)
    (hrest : rest <:+ gs) (content : String) (kind : ValueKind) :
    Values stop gs rest owner b.tree (b.setText owner content kind).tree := by
  have hself := get_modify_self h.lt_size fun pair => { pair with value := some content, valueKind := kind }
  have hsize : (b.setText owner content kind).tree.size = b.tree.size := size_modify ..
  change (b.setText owner content kind).tree.get owner = _ at hself
  have hchildren : ((b.setText owner content kind).tree.get owner).children = [] := by
    rw [hself]
    exact h.children_eq
  refine ⟨hsize.symm.le, fun x _ hne => get_modify_of_ne hne _, ?_, ?_, ?_, fun c hc => ?_, ?_, ?_, ?_,
    fun x hx hlt => absurd (hsize ▸ hlt) (not_lt.mpr hx)⟩
  · rw [PairTree.kind, hself]
    rfl
  · rw [hself]
  · rw [hself]
  · rw [hself, Pair.held] at hc
    dsimp only at hc
    rw [h.children_eq, h.items_eq] at hc
    cases hc
  · rw [children, hchildren]
    exact hrest
  · rw [hself]
    dsimp only
    rw [h.items_eq]
    exact hrest
  · have hcontent := contentChildren_eq_nil hchildren
    refine ⟨.inr (.inr (.inr ?_)), fun hblock => ?_⟩
    · rcases isValue_cases hdelimiter with hequal | hfree
      · refine ⟨.text, ?_, ?_, ?_, hcontent⟩ <;> rw [hself]
        · exact hequal
        · rfl
        · exact h.items_eq
      · refine ⟨.free, ?_, ?_, ?_, hcontent⟩ <;> rw [hself]
        · exact hfree
        · rfl
        · exact h.items_eq
    · rw [hself] at hblock
      dsimp only at hblock
      rw [hblock] at hdelimiter
      cases hdelimiter

theorem setReference_values (h : b.tree.Vacant owner) (hdelimiter : (b.tree.get owner).delimiter = .equal)
    {head : Reference} (hlies : (Value.reference head).LiesIn stop gs rest) :
    Values stop gs rest owner b.tree (b.setValue site owner (.reference head)).tree := by
  obtain ⟨start, hstart, hhead⟩ := hlies
  have hshows : Shows site owner [.reference head] [b.tree.size] b.tree
      (b.addReference site owner head).2.tree := .cons ⟨b.tree, rfl⟩ (.nil site owner _)
  refine hshows.values h hdelimiter ?_ ⟨.singleton (hhead.fills.left hstart), ?_⟩ (fun _ => rfl)
    (.inl ⟨?_, h.items_eq, rfl, head, rfl⟩)
  · intro c hc
    exact (mem_singleton.mp hc).symm.le
  · intro other hmem name hname
    cases mem_singleton.mp hmem
    exact (hhead.name name hname).mono hstart (suffix_refl _)
  · dsimp only
    rw [h.children_eq]
    rfl

theorem setSegments_values (hparsed : b.tree.Parsed modules) (h : b.tree.Vacant owner)
    (hdelimiter : (b.tree.get owner).delimiter = .equal)
    (hparts : parts ≠ []) (hlies : Segment.LieIn stop gs rest parts) :
    Values stop gs rest owner b.tree (b.setValue site owner (.segments parts hparts)).tree := by
  have hreferences := addReferences_shows b site owner parts
  obtain ⟨htexts, hsub⟩ := addTexts_shows hreferences.all
  obtain ⟨hmakes, hnew⟩ := addReferences_makes hparsed site owner parts
  obtain ⟨-, hids⟩ := addTexts_makes hmakes.parsed site parts hmakes.nodup hmakes.loose hmakes.part
  have hshows : Shows site owner parts _ b.tree _ := hreferences.trans htexts hsub
  have htree : (b.setValue site owner (.segments parts hparts)).tree = _ := modify_modify ..
  rw [htree]
  refine hshows.values h hdelimiter (fun c hc => ?_) hlies (fun _ => rfl) (.inr ⟨h.children_eq, rfl, rfl, hparts⟩)
  rcases hids c hc with hreference | hle
  · exact hnew c hreference
  · exact hreferences.size_le.trans hle

theorem setValue_values (hparsed : b.tree.Parsed modules) (h : b.tree.Vacant owner)
    (hdelimiter : (b.tree.get owner).delimiter.isValue) {value : Value}
    (hfree : (b.tree.get owner).delimiter = .doubleEqual → ∃ content kind, value = .text content kind)
    (hrest : rest <:+ gs) (hlies : value.LiesIn stop gs rest) :
    Values stop gs rest owner b.tree (b.setValue site owner value).tree := by
  have hequal : (∀ content kind, value ≠ .text content kind) → (b.tree.get owner).delimiter = .equal := by
    intro hne
    rcases isValue_cases hdelimiter with hequal | hdouble
    · exact hequal
    · obtain ⟨content, kind, htext⟩ := hfree hdouble
      exact absurd htext (hne content kind)
  cases value with
  | text content kind => exact setText_values h hdelimiter hrest content kind
  | bare content => exact setText_values h hdelimiter hrest content _
  | reference head => exact setReference_values h (hequal fun _ _ => Value.noConfusion) hlies
  | segments parts hparts => exact setSegments_values hparsed h (hequal fun _ _ => Value.noConfusion) hparts hlies

theorem giveValue_values {c : Builder} (hparsed : c.tree.Parsed modules) (hvacant : c.tree.Vacant owner)
    (hdelimiter : (c.tree.get owner).delimiter = item.head.delimiter)
    (hkind : (c.tree.get owner).valueKind = item.head.delimiter.blockValueKind) (hrest : rest <:+ gs)
    (hlies : ∀ value, item.value = some value → value.LiesIn stop gs rest) :
    Values stop gs rest owner c.tree (item.value.elim (c.reportAll site item.notes)
      ((c.reportAll site item.notes).setValue site owner)).tree := by
  have htree := tree_reportAll c site item.notes
  generalize c.reportAll site item.notes = reported at htree ⊢
  rw [← htree] at hparsed hvacant hdelimiter hkind ⊢
  cases hvalue : item.value with
  | none =>
    refine hvacant.values ?_ (fun hblock => ?_) hrest
    · rw [hdelimiter, ← item.announced, hvalue]
      rfl
    · rw [hkind, hdelimiter.symm.trans hblock]
      rfl
  | some value =>
    refine setValue_values hparsed hvacant ?_ (fun hdouble => ?_) hrest (hlies value hvalue)
    · rw [hdelimiter, ← item.announced, hvalue]
      rfl
    · obtain ⟨content, kind, htext⟩ := item.free (hdelimiter.symm.trans hdouble)
      exact ⟨content, kind, Option.some.inj (hvalue.symm.trans htext)⟩

theorem addPair_adds (h : b.tree.Parsed modules) (hmodule : site.root ∈ modules)
    (happart : b.tree.Apart site.root) {parent id : PairId} (hparent : parent < b.tree.size)
    (hroot : site.root ≤ parent) {inGroup : Bool}
    (hlies : item.LiesIn stop gs rest) (hok : b.addPair site parent inGroup item = .ok (id, b')) :
    Adds stop site.root gs rest b.tree b'.tree ∧ id = b.tree.size := by
  obtain ⟨body, hhead, hbody, hvalueLies⟩ := hlies.exists_body
  simp only [addPair] at hok
  rw [bind_eq_ok] at hok
  obtain ⟨c, hattach, hok⟩ := hok
  cases hok
  have hfresh : (b.pairFor site parent inGroup item.head).Fresh := makePair_fresh ..
  have hname : (b.pairFor site parent inGroup item.head).nameSpan.LiesIn stop gs body :=
    makePair_nameSpan_liesIn _ _ _ _ _ hhead.fills.liesIn hhead.name
  generalize hpair : b.pairFor site parent inGroup item.head = pair at *
  have hadd := add_leads h hfresh
  have hloose := loose_add b.tree hfresh
  have hrootLe : site.root ≤ b.tree.size := hroot.trans hparent.le
  have hpairSpan : pair.span = item.head.span := by
    rw [← hpair]
    rfl
  have hpairDelimiter : pair.delimiter = item.head.delimiter := by
    rw [← hpair]
    rfl
  have hfills : pair.span.Fills stop gs rest := hpairSpan ▸ hhead.fills.right hbody
  have hget : (b.add pair).2.tree.get b.tree.size = pair := get_add_self ..
  have haddApart : (b.add pair).2.tree.Apart site.root :=
    happart.of_before h.wellFormed hadd.parsed.wellFormed fun x hx =>
      get_add_of_ne b.tree pair (hx.trans_le hrootLe).ne
  have hlies' : ((b.add pair).2.tree.get b.tree.size).span.LiesIn stop gs rest := by
    rw [hget]
    exact hfills.liesIn
  have hposition : Span.LiesIn stop gs rest (.point item.head.span.stop) := by
    rw [hhead.span_eq]
    exact Span.point_liesIn hbody hhead.suffix
  have hattached := attach_leads hadd.parsed hmodule (hparent.trans_le hadd.size_le) hloose hparent.ne hattach
  obtain ⟨more, hhangs, hself, hmore⟩ := attach_hangs hadd.parsed hmodule haddApart
    (hparent.trans_le hadd.size_le) hroot hloose hrootLe hparent.ne hlies' hposition hattach
  have halike := hhangs.alike b.tree.size hloose.lt_size
  rw [hget] at halike
  have hvacant : c.tree.Vacant b.tree.size := by
    refine ⟨hloose.lt_size.trans_le hhangs.size_le, ?_, ?_, ?_⟩
    · rw [halike.value_eq, ← hpair]
      rfl
    · rw [halike.items_eq, ← hpair]
      rfl
    · refine (hhangs.children_eq b.tree.size).trans ?_
      rw [hself, children, hget, ← hpair]
      rfl
  have hvalues : Values stop gs rest b.tree.size c.tree (item.value.elim (c.reportAll site item.notes)
      ((c.reportAll site item.notes).setValue site b.tree.size)).tree := by
    refine giveValue_values hattached.parsed hvacant ?_ ?_ (hbody.trans hhead.suffix)
      fun value hvalue => (hvalueLies value hvalue).left hhead.suffix
    · rw [halike.delimiter_eq, hpairDelimiter]
    · rw [halike.valueKind_eq, ← hpair]
      rfl
  refine ⟨hvalues.adds hhangs ?_ hrootLe hfills (hname.mono (suffix_refl _) hbody) ?_, rfl⟩
  · rw [hget] at hmore
    exact hmore
  · rw [hpairSpan, hhead.span_eq, hlies.stop_eq]
    exact Span.fills (hbody.trans hhead.suffix) (hbody.length_le.trans_lt hhead.length_lt)

end Builder

end PairMarkup
