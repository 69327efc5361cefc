import PairMarkup.Proofs.Construction.Finishing

namespace PairMarkup

open List Kind Cursor

namespace PairTree

variable {stop : Position} {gs rest : List Glyph} {root m x : PairId} {t t' : PairTree}

/-- A pair as its text says: it lies in the text, what it holds is in the order of the text, and it has
    a value in one way. -/
structure Laid (stop : Position) (gs : List Glyph) (t : PairTree) (m x : PairId) : Prop where
  spans : x ≠ m → (t.get x).span.LiesIn stop gs [] ∧ (t.get x).nameSpan.LiesIn stop gs []
  children : SpansInOrder stop t gs (t.children x) []
  items : SpansInOrder stop t gs ((t.get x).items.getD []) []
  shaped : (t.kind x).isComment = true ∨ t.IsTextPart x ∨ ∃ shape, t.HasShape x shape

theorem HangsFrom.of_parent_eq (hwf : t.WellFormed) (hwf' : t'.WellFormed)
    (hparent : ∀ x, t'.parent? x = t.parent? x) (h : t'.HangsFrom m x) : t.HangsFrom m x := by
  induction h with
  | refl => exact .refl
  | @tail p c _ hc ih =>
    refine ih.tail ?_
    rw [hwf.mem_held_iff, ← hparent]
    exact hwf'.mem_held_iff.mp hc

theorem HangsFrom.of_before (hwf : t.WellFormed) (hbefore : ∀ x, x < t.size → t'.get x = t.get x)
    (hm : m < t.size) (h : t'.HangsFrom m x) : t.HangsFrom m x ∧ x < t.size := by
  induction h with
  | refl => exact ⟨.refl, hm⟩
  | @tail p c _ hc ih =>
    rw [hbefore p ih.2] at hc
    exact ⟨ih.1.tail hc, hwf.held_lt_size hc⟩

theorem contentChildren_eq_of_before (hwf : t.WellFormed) (hbefore : ∀ x, x < t.size → t'.get x = t.get x)
    (hx : x < t.size) : t'.contentChildren x = t.contentChildren x := by
  rw [contentChildren, PairTree.children, hbefore x hx]
  refine filter_congr fun c hc => ?_
  rw [kind, hbefore c (hwf.held_lt_size (mem_append_left _ hc)), kind]

theorem Laid.of_before (h : Laid stop gs t m x) (hwf : t.WellFormed)
    (hbefore : ∀ x, x < t.size → t'.get x = t.get x) (hx : x < t.size) : Laid stop gs t' m x where
  spans hne := by
    rw [hbefore x hx]
    exact h.spans hne
  children := by
    rw [PairTree.children, hbefore x hx]
    exact h.children.congr fun c hc => by rw [hbefore c (hwf.held_lt_size (mem_append_left _ hc))]
  items := by
    rw [hbefore x hx]
    exact h.items.congr fun c hc => by rw [hbefore c (hwf.held_lt_size (mem_append_right _ hc))]
  shaped := by
    have hsame := hbefore x hx
    have hcontent := contentChildren_eq_of_before hwf hbefore hx
    rcases h.shaped with hcomment | htext | ⟨shape, hshape⟩
    · exact .inl (by rw [kind, hsame]; exact hcomment)
    · refine .inr (.inl (htext.of_alike (fun y hy => ?_) hx))
      rw [hbefore y hy]
      exact .refl _
    · refine .inr (.inr ⟨shape, hshape.of_alike (hsame ▸ .refl _) (fun _ => hcontent) fun c hc => ?_⟩)
      rw [hbefore c (hwf.held_lt_size (mem_append_left _ (mem_of_mem_filter hc)))]
      exact .refl _

namespace Settles

section

variable (h : Settles root t t')

include h

theorem kept (hdelimiter : (t.get x).delimiter ≠ .colonEqual) : Kept t t' x := by
  rcases h.outcome x with hkept | hgathered
  · exact hkept
  · exact absurd hgathered.delimiter_eq hdelimiter

theorem isTextPart (hx : t.IsTextPart x) : t'.IsTextPart x := by
  obtain ⟨helement, owner, hdelimiter, items, hitems, hmem⟩ := hx
  have hkept : Kept t t' owner := h.kept (by rw [hdelimiter]; decide)
  refine ⟨?_, owner, (h.delimiter_eq owner).trans hdelimiter, items, hkept.items_eq.trans hitems, hmem⟩
  rw [← isElement_unplaced, h.unplaced_eq, isElement_unplaced]
  exact helement

theorem hasShape (hdelimiter : (t.get x).delimiter ≠ .colonEqual)
    {shape : ValueShape} (hx : t.HasShape x shape) : t'.HasShape x shape := by
  have hkept := h.kept hdelimiter
  refine hx.imp (h.delimiter_eq x) (h.value_eq x) hkept.items_eq hkept.valueKind_eq
    (fun _ => h.contentChildren_eq hkept) fun c _ => ⟨?_, ?_⟩
  · rw [← isAliasUsage_unplaced, h.unplaced_eq, isAliasUsage_unplaced]
  · rw [← isParameter_unplaced, h.unplaced_eq, isParameter_unplaced]

theorem hasShape_gathered (hdraft : t.Draft x)
    (hdelimiter : (t.get x).delimiter = .colonEqual) (hsome : (t'.get x).items.isSome) :
    t'.HasShape x .gathered := by
  obtain ⟨hvalue, hitems, -⟩ := hdraft.block hdelimiter
  rcases h.outcome x with hkept | hgathered
  · rw [hkept.items_eq, hitems] at hsome
    cases hsome
  · refine ⟨(h.delimiter_eq x).trans hdelimiter, (h.value_eq x).trans hvalue, hsome, hgathered.valueKind_eq, ?_⟩
    rw [contentChildren, hgathered.children_eq, filter_eq_nil_iff]
    intro c hc
    rw [h.isComment_eq, (mem_filter.mp hc).2]
    decide

theorem shaped (hdraft : t.Draft x) (hsome : (t.get x).delimiter = .colonEqual → (t'.get x).items.isSome) :
    (t'.kind x).isComment ∨ t'.IsTextPart x ∨ ∃ shape, t'.HasShape x shape := by
  by_cases hblock : (t.get x).delimiter = .colonEqual
  · exact .inr (.inr ⟨.gathered, h.hasShape_gathered hdraft hblock (hsome hblock)⟩)
  · rcases hdraft.shaped with hcomment | htext | hdelimiter | ⟨shape, hshape⟩
    · exact .inl ((h.isComment_eq x).trans hcomment)
    · exact .inr (.inl (h.isTextPart htext))
    · exact absurd hdelimiter hblock
    · exact .inr (.inr ⟨shape, h.hasShape hblock hshape⟩)

theorem laid (hspans : x ≠ m → (t.get x).span.LiesIn stop gs [] ∧ (t.get x).nameSpan.LiesIn stop gs [])
    (hchildren : SpansInOrder stop t gs (t.children x) [])
    (hitems : SpansInOrder stop t gs ((t.get x).items.getD []) []) (hdraft : t.Draft x)
    (hsome : (t.get x).delimiter = .colonEqual → (t'.get x).items.isSome) : Laid stop gs t' m x where
  spans hne := by
    rw [h.span_eq, h.nameSpan_eq]
    exact hspans hne
  children := by
    refine SpansInOrder.congr (t := t) ?_ fun c _ => h.span_eq c
    rcases h.outcome x with hkept | hgathered
    · rw [hkept.children_eq]
      exact hchildren
    · rw [hgathered.children_eq]
      exact hchildren.sublist filter_sublist
  items := by
    refine SpansInOrder.congr (t := t) ?_ fun c _ => h.span_eq c
    rcases h.outcome x with hkept | hgathered
    · rw [hkept.items_eq]
      exact hitems
    · rw [hgathered.items_eq]
      exact hchildren.sublist filter_sublist
  shaped := h.shaped hdraft hsome

end

end Settles

end PairTree

namespace ModuleSet

open PairTree

variable {set set' : ModuleSet} {file : String} {format : Format} {text : List Char} {x : PairId}

theorem tree_opened (set : ModuleSet) (file : String) (format : Format) :
    (set.opened file format).tree = (set.tree.add { Pair.bare (.moduleRoot format) default file
      set.modules.length with name := some file }).2 := rfl

theorem opened_ahead (h : set.Parsed) (file : String) (format : Format) :
    (set.opened file format).Ahead (set.addModule file format).2.modules (set.nextSite file format) := by
  have hadd := h.addModule file format
  refine ⟨⟨hadd.tree_parsed, hadd.verbatim, fun x hx => ?_⟩, fun c p hparent => ?_, fun x hx => ?_⟩
  · rw [mem_singleton.mp hx]
    exact lt_size_add set.tree _
  · rw [tree_opened, parent?, get_add] at hparent
    split at hparent
    · cases hparent
    · exact ⟨fun _ => h.tree_parsed.wellFormed.parent_lt_size hparent, fun _ => lt_size_of_parent hparent⟩
  · exact (mem_singleton.mp hx).symm.le

/-- Nothing that was there changes when a text is read, and what hangs from the new module is as the
    text says. -/
theorem parse_laid (h : set.Parsed) (hok : (set.parse file format text).result = .ok set') :
    set'.modules = set.modules ++ [set.tree.size] ∧ set.tree.size < set'.tree.size ∧
      (∀ x, x < set.tree.size → set'.tree.get x = set.tree.get x) ∧
      ∀ x, set'.tree.HangsFrom set.tree.size x →
        Laid (ofList text).stop (ofList text).ahead set'.tree set.tree.size x := by
  have hparsed := h.parse hok
  obtain ⟨b, hlines, rfl⟩ := parse_eq_ok hok
  have hmodule := set.root_mem_modules file format
  obtain ⟨hadds, hahead, -⟩ := (opened_ahead h file format).addLines_adds hmodule (Line.ofText_inOrder text) hlines
  obtain ⟨hsettles, hsome⟩ := Builder.finish_settles hahead.parsed hmodule hahead.apart
  have hget : ∀ x, x ≠ set.tree.size → (set.opened file format).tree.get x = set.tree.get x := fun x hx => by
    rw [tree_opened]
    exact get_add_of_ne set.tree _ hx
  have hsize : (set.opened file format).tree.size = set.tree.size + 1 := size_add ..
  refine ⟨rfl, hparsed.tree_parsed.module_lt_size hmodule, fun x hx => ?_, fun x hx => ?_⟩
  · exact ((hsettles.before x hx).trans (hadds.before x hx)).trans (hget x hx.ne)
  · have hhangs := hx.of_parent_eq hahead.parsed.wellFormed hparsed.tree_parsed.wellFormed hsettles.parent_eq
    have hle := hahead.apart.le_of_hangsFrom hahead.parsed.wellFormed hhangs le_rfl
    obtain ⟨more, hgains⟩ := hadds.gains x
    by_cases hroot : x = set.tree.size
    · subst hroot
      have hself := hadds.alike set.tree.size (hsize ▸ Nat.lt_succ_self _)
      have hchildren : b.tree.children set.tree.size = more := by
        rw [hgains.children_eq, tree_opened, PairTree.children, get_add_self]
        rfl
      rw [tree_opened, get_add_self] at hself
      refine hsettles.laid (absurd rfl) ?_ ?_ ⟨.inr (.inr (.inr ⟨.bare, .inl ?_, ?_, ?_⟩)), fun hblock => ?_⟩
        (hsome _ hhangs)
      · rw [hchildren]
        exact hgains.inOrder
      · rw [hself.items_eq]
        exact nil_suffix
      · rw [hself.delimiter_eq]
        rfl
      · rw [hself.value_eq]
        rfl
      · rw [hself.items_eq]
        rfl
      · rw [hself.delimiter_eq] at hblock
        cases hblock
    · have hnew : (set.opened file format).tree.size ≤ x := by
        rw [hsize]
        exact Nat.lt_of_le_of_ne hle (Ne.symm hroot)
      have hlt : x < b.tree.size := by
        rcases hhangs.cases_tail with heq | ⟨p, -, hheld⟩
        · exact absurd heq hroot
        · exact hahead.parsed.wellFormed.held_lt_size hheld
      have hmade := hadds.made x hnew hlt
      refine hsettles.laid (fun _ => ⟨hmade.span, hmade.nameSpan⟩) ?_ hmade.items hmade.draft (hsome x hhangs)
      rw [hgains.children_eq, children_eq_nil hnew]
      exact hgains.inOrder

end ModuleSet

namespace Session

open PairTree

variable {s s' : Session} {sources : List Source}

/-- Every module is as its text says. -/
def Laid (s : Session) (sources : List Source) : Prop :=
  List.Forall₂ (fun m (source : Source) => m < s.set.tree.size ∧ ∀ x, s.set.tree.HangsFrom m x →
    PairTree.Laid (Cursor.ofList source.text).stop (Cursor.ofList source.text).ahead s.set.tree m x)
    s.set.modules sources

theorem Laid.exists_source (h : s.Laid sources) {m : PairId} (hm : m ∈ s.set.modules) :
    ∃ source ∈ sources, ∀ x, s.set.tree.HangsFrom m x →
      PairTree.Laid (ofList source.text).stop (ofList source.text).ahead s.set.tree m x := by
  unfold Laid at h
  generalize s.set.modules = modules at h hm
  induction h with
  | nil => cases hm
  | @cons _ source _ _ hfirst _ ih =>
    rcases mem_cons.mp hm with rfl | hm
    · exact ⟨source, mem_cons_self, hfirst.2⟩
    · obtain ⟨other, hother, hlaid⟩ := ih hm
      exact ⟨other, mem_cons_of_mem _ hother, hlaid⟩

theorem Laid.parse {source : Source} (h : s.Laid sources) (hparsed : s.set.Parsed)
    (hok : s.parse source = .ok s') : s'.Laid (sources ++ [source]) ∧ s'.set.Parsed := by
  have hset := (parse_eq_ok hok).1
  obtain ⟨hmodules, hsize, hbefore, hnew⟩ := ModuleSet.parse_laid hparsed hset
  have hwf := hparsed.tree_parsed.wellFormed
  refine ⟨?_, hparsed.parse hset⟩
  rw [Laid, hmodules]
  refine rel_append (List.Forall₂.imp (fun m source hm => ?_) h) (.cons ⟨hsize, hnew⟩ .nil)
  refine ⟨hm.1.trans hsize, fun x hx => ?_⟩
  obtain ⟨hx, hlt⟩ := hx.of_before hwf hbefore hm.1
  exact (hm.2 x hx).of_before hwf hbefore hlt

theorem Laid.parseAll {more : List Source} (h : s.Laid sources) (hparsed : s.set.Parsed)
    (hok : s.parseAll more = .ok s') : s'.Laid (sources ++ more) := by
  induction more generalizing s sources with
  | nil =>
    cases hok
    rw [append_nil]
    exact h
  | cons source more ih =>
    rw [Session.parseAll, foldlM_cons, bind_eq_ok] at hok
    obtain ⟨next, hnext, hok⟩ := hok
    obtain ⟨hlaid, hnextParsed⟩ := h.parse hparsed hnext
    have hall := ih hlaid hnextParsed hok
    rwa [append_assoc] at hall

theorem laid_of_start {limit : Option Nat} (hok : (start limit).parseAll sources = .ok s) : s.Laid sources := by
  have hstart : (start limit).Laid [] := List.Forall₂.nil
  exact hstart.parseAll .empty hok

end Session

end PairMarkup
