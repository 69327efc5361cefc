import PairMarkup.Proofs.Outline.Inline
import PairMarkup.Proofs.Outline.RoundTrip
import PairMarkup.Proofs.PlaceMap.Building

namespace PairMarkup

open List PairTree

def Pair.unspanned (pair : Pair) : Pair := { pair with span := default, nameSpan := default }

def PairTree.unspanned (t : PairTree) : PairTree := ⟨t.pairs.map Pair.unspanned⟩

namespace PairTree

variable {t t' : PairTree} (h : t'.unspanned = t.unspanned)

include h

theorem size_eq_of_unspanned : t'.size = t.size := by
  rw [← size_moved (r := unplacing) t', ← size_moved (r := unplacing) t]
  exact congrArg size h

/-- What is read off a pair without its spans is the same in both trees. -/
theorem eq_of_unspanned {α : Type} (g : Pair → α) (hg : ∀ pair, g pair.unspanned = g pair) (x : PairId) :
    g (t'.get x) = g (t.get x) := by
  have hget : unplacing.pair (t'.get x) = unplacing.pair (t.get x) := by
    rw [← get_moved, ← get_moved]
    exact congrArg (get · x) h
  rw [← hg (t'.get x), ← hg (t.get x)]
  exact congrArg g hget

end PairTree

theorem PairItem.Tells.addPair_eq {item item' : PairItem} {name : Word} {value : Option (String × ValueKind)}
    (h : item.Tells name value) (h' : item'.Tells name value) (b : Builder) (site : Site) (parent : PairId) :
    b.addPair site parent false (unplacing.pairItem item') = b.addPair site parent false (unplacing.pairItem item) := by
  obtain ⟨⟨sigil, _, delimiter, span⟩, _, _, stop, opensGroup⟩ := item
  obtain ⟨⟨sigil', _, delimiter', span'⟩, _, _, stop', opensGroup'⟩ := item'
  obtain ⟨rfl, ⟨nameSpan, rfl⟩, rfl, rfl, rfl⟩ := h
  obtain ⟨rfl, ⟨nameSpan', rfl⟩, rfl, rfl, rfl⟩ := h'
  rfl

namespace Builder

open LineState

variable {site : Site} {b b' c : Builder} {parent block : PairId}

/-- The builders have come to the same tree, but for spans, and have reported the same elsewhere. -/
def Echoes (b b' : Builder) : Prop := unplacing.builder b' = unplacing.builder b

namespace Echoes

theorem tree_eq (h : Echoes b b') : b'.tree.unspanned = b.tree.unspanned := congrArg tree h

theorem log_eq_nil (h : Echoes b b') (hlog : b.log = []) : b'.log = [] := by
  have hlogs : unplacing.log b'.log = unplacing.log b.log := congrArg log h
  rw [hlog] at hlogs
  exact map_eq_nil_iff.mp hlogs

/-- A pair that is added is added the other time as well, be it in a group. -/
theorem exists_addPair (h : Echoes b b') {item item' : PairItem} {name : Word}
    {value : Option (String × ValueKind)} (hitem : item.Tells name value) (hitem' : item'.Tells name value)
    (husage : (b.tree.kind parent).isAliasUsage = false) {x : PairId}
    (hadd : b.addPair site parent false item = .ok (x, c)) (inGroup : Bool) :
    ∃ c', b'.addPair site parent inGroup item' = .ok (x, c') ∧ Echoes c c' := by
  have husage' : (b'.tree.kind parent).isAliasUsage = false := by
    rw [← husage]
    exact eq_of_unspanned h.tree_eq (·.kind.isAliasUsage) (fun _ => rfl) parent
  have hgroup : b'.addPair site parent inGroup item' = b'.addPair site parent false item' := by
    simp only [addPair, pairFor, husage', Bool.and_false]
  have hmoved : unplacing.outcome (Prod.map id unplacing.builder) (b'.addPair site parent false item') =
      .ok (x, unplacing.builder c) := by
    rw [← addPair_moved, show unplacing.builder b' = unplacing.builder b from h, hitem.addPair_eq hitem']
    exact (addPair_moved b site parent false item).trans (by rw [hadd]; rfl)
  rw [hgroup]
  cases hadd' : b'.addPair site parent false item' with
  | error halt =>
    rw [hadd'] at hmoved
    cases hmoved
  | ok found =>
    rw [hadd'] at hmoved
    obtain ⟨hid, hechoes⟩ := Prod.mk.inj (Except.ok.inj hmoved)
    exact ⟨found.2, congrArg (fun x => Except.ok (x, found.2)) hid, hechoes⟩

end Echoes

namespace LineState

/-- Items have left the groups and the levels around them as they were. -/
structure Passes (s s' : LineState) : Prop where
  groups_eq : s'.groups = s.groups
  levels_eq : s'.levels.take s.levels.length = s.levels
  isChained : s.isChained = true → s'.isChained = true

/-- Items of one entry have done so, and a separator leads back to where the entry was put. -/
structure PassesEntry (s s' : LineState) : Prop extends Passes s s' where
  lastLevel_eq : s'.lastLevel = s.levels.length
  chained : s'.levels = s.levels ∨ s'.isChained = true

variable {s s' s'' : LineState}

theorem levels_separate (h : PassesEntry s s') (hroom : s.groups.head?.getD 1 ≤ s.levels.length) :
    s'.separate.levels = s.levels := by
  have hmax : max s'.lastLevel (s'.groups.head?.getD 1) = s.levels.length := by
    rw [h.lastLevel_eq, h.groups_eq]
    exact Nat.max_eq_left hroom
  rw [separate]
  split
  · change s'.levels.take (max s'.lastLevel (s'.groups.head?.getD 1)) = s.levels
    rw [hmax]
    exact h.levels_eq
  · rename_i hchained
    exact h.chained.resolve_right hchained

theorem separate_eq (s : LineState) : s.separate.groups = s.groups ∧ s.separate.isChained = s.isChained := by
  rw [separate]
  split <;> exact ⟨rfl, rfl⟩

theorem PassesEntry.separate_trans (h : PassesEntry s s') (hroom : s.groups.head?.getD 1 ≤ s.levels.length)
    (h' : PassesEntry s'.separate s'') : PassesEntry s s'' := by
  obtain ⟨⟨hgroups, hlevels, hchain⟩, hlast, hchained⟩ := h'
  rw [levels_separate h hroom] at hlevels hlast hchained
  rw [s'.separate_eq.1, h.groups_eq] at hgroups
  rw [s'.separate_eq.2] at hchain
  exact ⟨⟨hgroups, hlevels, hchain ∘ h.isChained⟩, hlast, hchained⟩

theorem passesEntry_enter (s : LineState) (x : PairId) (item : PairItem) : PassesEntry s (s.enter x item) := by
  rw [enter]
  split
  · exact ⟨⟨rfl, take_left' rfl, fun _ => rfl⟩, rfl, .inr rfl⟩
  · exact ⟨⟨rfl, take_length, id⟩, rfl, .inl rfl⟩

theorem passesEntry_closeGroup {x : PairId} {item : PairItem} (hblock : item.head.delimiter.isBlock)
    (hlevels : s.levels ≠ []) (h : Passes (s.enter x item).openGroup s') : PassesEntry s s'.closeGroup := by
  have henter : (s.enter x item).levels = s.levels ++ [x] ∧ (s.enter x item).groups = s.groups ∧
      (s.enter x item).isChained = true := by
    rw [enter, if_pos (by simp [hblock])]
    exact ⟨rfl, rfl, rfl⟩
  have hgroups : s'.groups = (s.levels.length + 1) :: s.groups := by
    rw [h.groups_eq, openGroup, henter.1, henter.2.1, length_append]
    rfl
  have hinner : s'.levels.take (s.levels.length + 1) = s.levels ++ [x] := by
    have hlevels := h.levels_eq
    change s'.levels.take (s.enter x item).levels.length = (s.enter x item).levels at hlevels
    rwa [henter.1, length_append] at hlevels
  have hchained : s'.isChained := h.isChained henter.2.2
  have hpos := length_pos_iff.mpr hlevels
  rw [closeGroup, hgroups]
  refine ⟨⟨rfl, ?_, fun _ => hchained⟩, ?_, .inr hchained⟩
  · change (s'.levels.take (s.levels.length + 1)).take s.levels.length = s.levels
    rw [hinner]
    exact take_left' rfl
  · change max (s.levels.length + 1 - 1) 1 = s.levels.length
    omega

end LineState

/-- Items are put into the tree, from a state of the line on. -/
def addItemsFrom (site : Site) (block : PairId) (items : List Item) (found : Builder × LineState) :
    Except Halt (Builder × LineState) :=
  items.foldlM (fun found item => found.1.addItem site block found.2 item) found

theorem addItemsFrom_cons {s : LineState} {item : Item} {found : Builder × LineState}
    (hadd : b.addItem site block s item = .ok found) (items : List Item) :
    addItemsFrom site block (item :: items) (b, s) = addItemsFrom site block items found := by
  rw [addItemsFrom, foldlM_cons, hadd]
  rfl

theorem addItemsFrom_append {items : List Item} {start found : Builder × LineState}
    (hadd : addItemsFrom site block items start = .ok found) (more : List Item) :
    addItemsFrom site block (items ++ more) start = addItemsFrom site block more found := by
  rw [addItemsFrom] at hadd
  rw [addItemsFrom, foldlM_append, hadd]
  rfl

/-- Entries of one depth are about to be put into a pair, by lines on the one side and by the items of a line
    on the other. -/
structure Beside (site : Site) (depth : Nat) (ids : List PairId) (parent : PairId) (b b' : Builder)
    (s : LineState) : Prop where
  echoes : Echoes b b'
  ready : Ready site b
  lists : Lists site b depth ids
  block_eq : b.blocks[depth]? = some parent
  isPlain : (b.tree.kind parent).isAliasUsage = false
  last_eq : s.levels.getLast? = some parent
  room : s.groups.head?.getD 1 ≤ s.levels.length

/-- Lines and items do the same: the host of the depth then has all of `ids`. Lines of the rows `rest` are
    left, and the items lead to a state that has the given property. -/
def DoAlike (site : Site) (block : PairId) (depth : Nat) (lines : List Line) (rest : List Row) (items : List Item)
    (b b' : Builder) (s : LineState) (ids : List PairId) (reached : LineState → Prop) : Prop :=
  ∃ c c' s' remaining, Row.Lined rest remaining ∧
    lines.foldlM (addLine site) b = remaining.foldlM (addLine site) c ∧ Extends site depth ids b c ∧
    addItemsFrom site block items (b', s) = .ok (c', s') ∧
    Echoes c c' ∧ reached s'

namespace Beside

variable {depth : Nat} {ids ids' : List PairId} {c' : Builder} {s s' : LineState} {block x : PairId} {item : PairItem}

section

variable (h : Beside site depth ids parent b b' s) {name : Word}

include h

theorem container_eq (block : PairId) : s.container block = parent := by
  rw [container, h.last_eq, Option.getD_some]

theorem levels_ne_nil : s.levels ≠ [] := by
  intro hnil
  have hlast := h.last_eq
  rw [hnil] at hlast
  cases hlast

theorem after (hextends : Extends site depth ids' b c) (hechoes : Echoes c c') (hpasses : PassesEntry s s') :
    Beside site depth ids' parent c c' s'.separate where
  echoes := hechoes
  ready := hextends.ready
  lists := hextends.lists
  block_eq := (hextends.block_eq le_rfl).trans h.block_eq
  isPlain := by
    obtain ⟨hle, hlt⟩ := h.ready.mem_blocks parent (mem_of_getElem? h.block_eq)
    rw [kind_eq_of_said (hextends.same.said_eq parent hle hlt)]
    exact h.isPlain
  last_eq := by
    rw [levels_separate hpasses h.room]
    exact h.last_eq
  room := by
    rw [levels_separate hpasses h.room, s'.separate_eq.1, hpasses.groups_eq]
    exact h.room

theorem below (henters : Enters site depth ids name none x b c) (hechoes : Echoes c c')
    (hitem : item.Says name none) : Beside site (depth + 1) [] x c c' (s.enter x item).openGroup := by
  have henter : (s.enter x item).levels = s.levels ++ [x] := by
    rw [LineState.enter, if_pos (by rw [hitem.delimiter_eq]; rfl)]
  exact {
    echoes := hechoes
    ready := henters.ready
    lists := henters.lists_nil h.ready h.lists
    block_eq := henters.block_eq h.ready h.lists
    isPlain := by
      rw [PairTree.kind, henters.told.kind_eq]
      rfl
    last_eq := by
      change (s.enter x item).levels.getLast? = some x
      rw [henter]
      exact getLast?_concat
    room := le_rfl }

theorem exists_enters {value : Option Phrase}
    {rows : List Row} {lines : List Line} (hlines : Row.Lined (.entry depth name value :: rows) lines)
    (hitem : item.Says name value) (block : PairId) :
    ∃ c c' x remaining, Row.Lined rows remaining ∧ lines.foldlM (addLine site) b = remaining.foldlM (addLine site) c ∧
      Enters site depth ids name value x b c ∧
      b'.addItem site block s (.pair item) = .ok (c', s.enter x item) ∧ Echoes c c' := by
  cases hlines with
  | cons _ lead hsaid hremaining =>
    obtain ⟨c, hline, hadd, henters⟩ := exists_addLine_entry h.ready h.lists h.block_eq hsaid lead
    obtain ⟨c', hadd', hechoes⟩ := h.echoes.exists_addPair hsaid hitem h.isPlain hadd (!s.groups.isEmpty)
    refine ⟨c, c', b.tree.size, _, hremaining, ?_, henters, ?_, ?_⟩
    · rw [foldlM_cons, hline]
      rfl
    · rw [addItem, h.container_eq, hadd']
      rfl
    · rw [Echoes, hechoes]
      simp only [BuilderMap.builder, henters.log_eq]
      rfl

end

end Beside

end Builder

open Builder in
mutual

theorem Entry.doAlike {site : Site} {depth : Nat} {ids : List PairId} {parent : PairId} {b b' : Builder}
    {s : LineState} (h : Beside site depth ids parent b b' s) (block : PairId) {rest : List Row}
    {lines : List Line} {items : List Item} : (entry : Entry) → Row.Lined (entry.rows depth ++ rest) lines →
      entry.Itemized items → ∃ x, DoAlike site block depth lines rest items b b' s (ids ++ [x]) s.PassesEntry
  | leaf name value, hlines, hitems => by
    rw [Itemized] at hitems
    obtain ⟨item, hitem, rfl⟩ := hitems
    obtain ⟨c, c', x, remaining, hremaining, hfold, henters, hadd, hechoes⟩ := h.exists_enters hlines hitem block
    refine ⟨x, c, c', s.enter x item, remaining, hremaining, hfold, henters.toExtends, ?_, hechoes,
      s.passesEntry_enter x item⟩
    exact addItemsFrom_cons hadd []
  | Entry.block name entries, hlines, hitems => by
    rw [Itemized] at hitems
    obtain ⟨item, below, hitem, hbelow, rfl⟩ := hitems
    obtain ⟨c, c', x, remaining, hremaining, hfold, henters, hadd, hechoes⟩ := h.exists_enters hlines hitem block
    obtain ⟨added, d, d', s', remaining', hremaining', hfold', hextends, hrun, hechoes', hpasses⟩ :=
      doAlike_all (h.below henters hechoes hitem) block entries hremaining hbelow
    have hblock : item.head.delimiter.isBlock := by
      rw [hitem.delimiter_eq]
      rfl
    refine ⟨x, d, d', s'.closeGroup, remaining', hremaining', hfold.trans hfold',
      henters.extends_below h.ready h.lists hextends, ?_, hechoes',
      LineState.passesEntry_closeGroup hblock h.levels_ne_nil hpasses⟩
    rw [addItemsFrom_cons hadd]
    exact addItemsFrom_append hrun [.closeGroup]

theorem Entry.doAlike_all {site : Site} {depth : Nat} {ids : List PairId} {parent : PairId} {b b' : Builder}
    {s : LineState} (h : Beside site depth ids parent b b' s) (block : PairId) {rest : List Row}
    {lines : List Line} {items : List Item} : (entries : List Entry) →
      Row.Lined (rowsAll depth entries ++ rest) lines → ItemizedAll entries items →
      ∃ added, DoAlike site block depth lines rest items b b' s (ids ++ added) s.Passes
  | [], hlines, hitems => by
    rw [ItemizedAll] at hitems
    subst hitems
    refine ⟨[], b, b', s, lines, hlines, rfl, ?_, rfl, h.echoes, rfl, take_length, id⟩
    rw [append_nil]
    exact ⟨h.ready, rfl, rfl, .refl _ _ _, h.lists⟩
  | entry :: entries, hlines, hitems => by
    rw [ItemizedAll] at hitems
    obtain ⟨first, more, hfirst, hmore, rfl⟩ := hitems
    rw [rowsAll, append_assoc] at hlines
    obtain ⟨x, c, c', s', remaining, hremaining, hfold, hextends, hrun, hechoes, hpasses⟩ :=
      doAlike h block entry hlines hfirst
    obtain ⟨added, d, d', s'', remaining', hremaining', hfold', hextends', hrun', hechoes', hpasses'⟩ :=
      doAlike_rest h hextends hechoes hpasses block entries hremaining hmore
    refine ⟨x :: added, d, d', s'', remaining', hremaining', hfold.trans hfold', ?_, ?_, hechoes', hpasses'.toPasses⟩
    · have := hextends.trans hextends'
      rwa [append_assoc] at this
    · exact (addItemsFrom_append hrun more).trans hrun'

/-- Entries behind another one, whose items have led to the state `s'`. -/
theorem Entry.doAlike_rest {site : Site} {depth : Nat} {ids ids' : List PairId} {parent : PairId}
    {b b' c c' : Builder} {s s' : LineState} (h : Beside site depth ids parent b b' s)
    (hextends : Extends site depth ids' b c) (hechoes : Echoes c c') (hpasses : s.PassesEntry s') (block : PairId)
    {rest : List Row} {lines : List Line} {items : List Item} : (entries : List Entry) →
      Row.Lined (rowsAll depth entries ++ rest) lines → ItemizedRest entries items →
      ∃ added, DoAlike site block depth lines rest items c c' s' (ids' ++ added) s.PassesEntry
  | [], hlines, hitems => by
    rw [ItemizedRest] at hitems
    subst hitems
    refine ⟨[], c, c', s', lines, hlines, rfl, ?_, rfl, hechoes, hpasses⟩
    rw [append_nil]
    exact ⟨hextends.ready, rfl, rfl, .refl _ _ _, hextends.lists⟩
  | entry :: entries, hlines, hitems => by
    rw [ItemizedRest] at hitems
    obtain ⟨first, more, hfirst, hmore, rfl⟩ := hitems
    rw [rowsAll, append_assoc] at hlines
    obtain ⟨x, d, d', s₁, remaining, hremaining, hfold, hextends₁, hrun, hechoes₁, hpasses₁⟩ :=
      doAlike (h.after hextends hechoes hpasses) block entry hlines hfirst
    obtain ⟨added, e, e', s₂, remaining', hremaining', hfold', hextends₂, hrun', hechoes₂, hpasses₂⟩ :=
      doAlike_rest h (hextends.trans hextends₁) hechoes₁ (hpasses.separate_trans h.room hpasses₁) block entries
        hremaining hmore
    refine ⟨x :: added, e, e', s₂, remaining', hremaining', hfold.trans hfold', ?_, ?_, hechoes₂, hpasses₂⟩
    · have := hextends₁.trans hextends₂
      rwa [append_assoc] at this
    · rw [addItemsFrom_cons rfl]
      exact (addItemsFrom_append hrun more).trans hrun'

end

open Builder in
/-- An entry that is below no other takes one line or more on the one side, and one line on the other. -/
theorem Entry.doAlike_outline {site : Site} {b b' : Builder} {ids : List PairId} (hready : Ready site b)
    (hlists : Lists site b 0 ids) (hechoes : Echoes b b') (hroot : b'.blocks[0]? = some site.root)
    {outline : List Entry} {lines inlined : List Line} (hlines : Row.Lined (rowsAll 0 outline) lines)
    (hinlined : Inlined outline inlined) :
    ∃ c c' added, lines.foldlM (addLine site) b = .ok c ∧ inlined.foldlM (addLine site) b' = .ok c' ∧
      Extends site 0 (ids ++ added) b c ∧ Echoes c c' := by
  induction hinlined generalizing b b' ids lines with
  | nil =>
    cases hlines
    refine ⟨b, b', [], rfl, rfl, ?_, hechoes⟩
    rw [append_nil]
    exact ⟨hready, rfl, rfl, .refl _ _ _, hlists⟩
  | @cons entry outline others lead items hitems _ ih =>
    have hbeside : Beside site 0 ids site.root b b' (.initial site.root) :=
      { echoes := hechoes
        ready := hready
        lists := hlists
        block_eq := hready.head_eq
        isPlain := by
          have hmodule := hready.isModule
          cases hkind : b.tree.kind site.root <;> first | rfl | (rw [hkind] at hmodule; cases hmodule)
        last_eq := rfl
        room := le_rfl }
    obtain ⟨x, c, c', s', remaining, hremaining, hfold, hextends, hrun, hsame, -⟩ :=
      doAlike hbeside site.root entry hlines hitems
    let opened : Builder := { c' with blocks := [site.root] ++ s'.current.toList }
    have hline : addLine site b' (.content 0 lead items) = .ok opened := by
      have hblock : b'.lineBlock site 0 lead = (site.root, b') := by
        simp [lineBlock, blockAt, hroot]
      have hitems : b'.addItems site site.root items = .ok (c', s') := hrun
      simp only [addLine, hblock, hitems]
      rfl
    obtain ⟨d, d', added, hfold', hinlined', hextends', hsame'⟩ :=
      ih hextends.ready hextends.lists (show Echoes c opened from hsame) rfl hremaining
    refine ⟨d, d', x :: added, hfold.trans hfold', ?_, ?_, hsame'⟩
    · rw [foldlM_cons, hline]
      exact hinlined'
    · have := hextends.trans hextends'
      rwa [append_assoc] at this

theorem PairTree.Settled.of_unspanned {root : PairId} {t t' : PairTree} (hsettled : t.Settled root)
    (h : t'.unspanned = t.unspanned) : t'.Settled root where
  children_mem x hx c hc := by
    rw [children, eq_of_unspanned h Pair.children fun _ => rfl] at hc
    rw [size_eq_of_unspanned h]
    exact hsettled.children_mem x hx c hc
  finished x hx hlt := by
    rw [size_eq_of_unspanned h] at hlt
    obtain ⟨hitems, hdelimiter, hmodule⟩ := hsettled.finished x hx hlt
    have hsame : ∀ {α : Type} (g : Pair → α), (∀ pair, g pair.unspanned = g pair) → g (t'.get x) = g (t.get x) :=
      fun g hg => eq_of_unspanned h g hg x
    refine ⟨(hsame Pair.items fun _ => rfl).trans hitems, ?_, ?_⟩
    · rwa [hsame Pair.delimiter fun _ => rfl]
    · rwa [hsame Pair.delimiter fun _ => rfl, hsame Pair.valueKind fun _ => rfl, hsame Pair.kind fun _ => rfl]

mutual

theorem Entry.isFiller_rows (depth : Nat) : (entry : Entry) → ∀ row ∈ entry.rows depth, row.isFiller = false
  | block _ entries => forall_mem_cons.mpr ⟨rfl, isFiller_rowsAll (depth + 1) entries⟩
  | leaf _ _ => forall_mem_singleton.mpr rfl

theorem Entry.isFiller_rowsAll (depth : Nat) :
    (entries : List Entry) → ∀ row ∈ rowsAll depth entries, row.isFiller = false
  | [] => forall_mem_nil _
  | entry :: entries => forall_mem_append.mpr ⟨isFiller_rows depth entry, isFiller_rowsAll depth entries⟩

end

open Builder in
theorem ModuleSet.exists_parse_inlinePage (set : ModuleSet) (file : String) (format : Format)
    {unit : Line.IndentUnit} (hunit : 0 < unit.width) (outline : List Entry) :
    ∃ tree inlined, set.parse file format (Row.page unit (Entry.rowsAll 0 outline)) =
        ⟨[], .ok ⟨tree, set.modules ++ [set.tree.size]⟩⟩ ∧
      set.parse file format (Entry.inlinePage outline) = ⟨[], .ok ⟨inlined, set.modules ++ [set.tree.size]⟩⟩ ∧
      inlined.unspanned = tree.unspanned := by
  have hready := set.ready_opened file format
  have hlists := set.lists_opened file format
  have hsteps : Row.Steps 0 (Entry.rowsAll 0 outline) := by
    rw [← append_nil (Entry.rowsAll 0 outline)]
    exact Entry.steps_rowsAll (fun _ _ => show Row.Steps _ [] from trivial) le_rfl outline
  obtain ⟨c, c', ids, hfold, hinlined, hextends, hechoes⟩ := Entry.doAlike_outline hready hlists rfl rfl
      (Row.lined_ofText hunit (Entry.isFiller_rowsAll 0 outline) hsteps) (Entry.inlined_ofText outline)
  have hlog : c.log = [] := hextends.log_eq
  have hroot : set.tree.size < c'.tree.size := by
    rw [size_eq_of_unspanned hechoes.tree_eq]
    exact hextends.ready.root_lt
  refine ⟨c.tree, c'.tree, parse_eq_of_lines hfold hlog hextends.ready.finish_eq_self,
    parse_eq_of_lines hinlined (hechoes.log_eq_nil hlog) ?_, hechoes.tree_eq⟩
  exact finish_eq_self (hextends.ready.settled.of_unspanned hechoes.tree_eq) hroot

namespace Session

/-- An outline makes the same tree, but for spans, whether its blocks are written inline or with indentation,
    and neither gives a diagnostic. -/
theorem parse_inlinePage (s : Session) (name : String) (format : Format) {unit : Line.IndentUnit}
    (hunit : 0 < unit.width) (outline : List Entry) :
    ∃ set inlined, (s.set.parse name format (Row.page unit (Entry.rowsAll 0 outline))).log = [] ∧
      (s.set.parse name format (Entry.inlinePage outline)).log = [] ∧
      s.parse ⟨name, format, Row.page unit (Entry.rowsAll 0 outline)⟩ = .ok ⟨set, s.collection⟩ ∧
      s.parse ⟨name, format, Entry.inlinePage outline⟩ = .ok ⟨inlined, s.collection⟩ ∧
      inlined.modules = set.modules ∧ inlined.tree.unspanned = set.tree.unspanned := by
  obtain ⟨tree, inlined, hparse, hinlined, hsame⟩ := s.set.exists_parse_inlinePage name format hunit outline
  refine ⟨⟨tree, s.set.modules ++ [s.set.tree.size]⟩, ⟨inlined, s.set.modules ++ [s.set.tree.size]⟩, ?_, ?_, ?_, ?_,
    rfl, hsame⟩
  · rw [hparse]
  · rw [hinlined]
  · simp only [parse_eq_accept, hparse, accept, Collection.receiveAll]
  · simp only [parse_eq_accept, hinlined, accept, Collection.receiveAll]

theorem planOutline_inline : Entry.inlinePage planOutline = "p1: (t = \"2 é\", 7: ())\nq = \"\"".toList ∧
      ∃ set inlined,
        ((start none).set.parse "plan" .xml (Row.page ⟨false, 3⟩ (Entry.rowsAll 0 planOutline))).log = [] ∧
        ((start none).set.parse "plan" .xml (Entry.inlinePage planOutline)).log = [] ∧
        (start none).parse ⟨"plan", .xml, Row.page ⟨false, 3⟩ (Entry.rowsAll 0 planOutline)⟩ =
          .ok ⟨set, .empty none⟩ ∧
        (start none).parse ⟨"plan", .xml, Entry.inlinePage planOutline⟩ = .ok ⟨inlined, .empty none⟩ ∧
        inlined.modules = set.modules ∧ inlined.tree.unspanned = set.tree.unspanned :=
  ⟨by decide +kernel,
    parse_inlinePage (start none) "plan" .xml (show 0 < (⟨false, 3⟩ : Line.IndentUnit).width by decide) planOutline⟩

end Session

end PairMarkup
