import PairMarkup.Proofs.Advancing
import PairMarkup.Proofs.Construction.Strokes

namespace PairMarkup

open List Relation

/-- What one step keeps of a state and of what is still to come, a run of steps keeps that ends well. -/
theorem foldlM_ok_induction_rest {ε α β : Type} {f : β → α → Except ε β} {P : β → List α → Prop}
    (hstep : ∀ b a as b', P b (a :: as) → f b a = .ok b' → P b' as) {done rest : List α} {b b' : β}
    (hb : P b (done ++ rest)) (h : done.foldlM f b = .ok b') : P b' rest := by
  induction done generalizing b with
  | nil =>
    cases h
    exact hb
  | cons a as ih =>
    rw [foldlM_cons, bind_eq_ok] at h
    obtain ⟨c, hc, h⟩ := h
    exact ih (hstep b a _ c hb hc) h

/-- The state after a number of rounds, if the loop is not left by then. -/
def Loop.after {σ ρ : Type} (loop : Loop σ ρ) : (rounds : Nat) → σ → Option σ
  | 0, s => some s
  | n + 1, s =>
    match loop.round s with
    | .leave _ => none
    | .goOn next _ => loop.after n next

theorem Loop.exists_of_after {σ ρ : Type} {loop : Loop σ ρ} {n : Nat} {s : σ} {check : σ → Bool}
    (h : (loop.after n s).any check) :
    ∃ last, ReflTransGen loop.GoesOn s last ∧ check last := by
  induction n generalizing s with
  | zero => exact ⟨s, .refl, h⟩
  | succ n ih =>
    rw [after] at h
    cases hround : loop.round s with
    | leave result =>
      rw [hround] at h
      cases h
    | goOn next add =>
      rw [hround] at h
      obtain ⟨last, hsteps, hlast⟩ := ih h
      exact ⟨last, hsteps.head ⟨add, hround⟩, hlast⟩

def Item.nest (n : Nat) : Item → Nat
  | openGroup => n + 1
  | closeGroup => n - 1
  | _ => n

variable {indent : Indent} {span : Span} {item : Item}

namespace Line

theorem Layout.commentDepth_le (layout : Layout) (width : Nat) : layout.commentDepth width ≤ layout.openBlocks :=
  Nat.min_le_right _ _

/-- A line that is not rejected is no deeper than the open blocks, and if it is the first one that is
    indented, the unit that it sets has a width. -/
theorem Layout.measure_eq_ok {layout : Layout} {depth : Nat}
    {unit : Option IndentUnit} (h : layout.measure indent span = .ok (depth, unit)) :
    depth ≤ layout.openBlocks ∧ (unit = layout.unit ∨ ∃ isTab width, unit = some ⟨isTab, width⟩ ∧ 0 < width) := by
  unfold measure at h
  by_cases hwidth : indent.width = 0
  · rw [if_pos hwidth] at h
    cases h
    exact ⟨Nat.zero_le _, .inl rfl⟩
  · rw [if_neg hwidth] at h
    cases hunit : layout.unit with
    | none =>
      simp only [hunit] at h
      split_ifs at h with hmixed hopen
      cases h
      exact ⟨Nat.pos_of_ne_zero hopen, .inr ⟨_, _, rfl, Nat.pos_of_ne_zero hwidth⟩⟩
    | some unit =>
      simp only [hunit] at h
      split_ifs at h with hmixed hchar hmultiple hdepth
      cases h
      exact ⟨Nat.le_of_not_lt hdepth, .inl rfl⟩

/-- Of the groups that the items close, each is one of `n` or is opened before by them. -/
def ClosesOpened (n : Nat) : List Item → Prop
  | [] => True
  | item :: items => (item = .closeGroup → 0 < n) ∧ ClosesOpened (item.nest n) items

variable {n : Nat} {items : List Item}

theorem closesOpened_cons (hitem : item ≠ .closeGroup)
    (h : ClosesOpened (item.nest n) items) : ClosesOpened n (item :: items) :=
  ⟨fun heq => absurd heq hitem, h⟩

theorem closesOpened_comments (comments : List Comment) (h : ClosesOpened n items) :
    ClosesOpened n (comments.map .comment ++ items) := by
  induction comments with
  | nil => exact h
  | cons comment comments ih => exact closesOpened_cons Item.noConfusion ih

theorem closesOpened_notes (notes : List Note) (h : ClosesOpened n items) :
    ClosesOpened n (notes.map .note ++ items) := by
  induction notes with
  | nil => exact h
  | cons note notes ih => exact closesOpened_cons Item.noConfusion ih

theorem closesOpened_unclosed (n : Nat) (groups : List Position) : ClosesOpened n (unclosed groups) := by
  induction groups with
  | nil => trivial
  | cons start groups ih => exact closesOpened_cons Item.noConfusion ih

theorem readItems_closesOpened (stop : Position) (margin : Margin) (groups : List Position) (complete : Bool)
    (gs : List Glyph) : ClosesOpened groups.length (readItems stop margin groups complete gs).1 := by
  fun_induction readItems stop margin groups complete gs with
  | case1 => exact closesOpened_unclosed _ _
  | case2 => exact closesOpened_unclosed _ _
  | case3 _ _ _ _ _ _ _ _ _ _ found more ih => exact closesOpened_comments found.1 ih
  | case4 _ _ _ _ _ _ _ _ _ _ more ih => exact closesOpened_cons Item.noConfusion ih
  | case5 groups _ _ _ _ _ _ _ _ _ hclose more ih =>
    obtain ⟨-, hgroups⟩ := Bool.and_eq_true_iff.mp hclose
    cases groups with
    | nil => cases hgroups
    | cons start groups => exact ⟨fun _ => Nat.succ_pos _, ih⟩
  | case6 _ _ _ _ _ _ _ _ _ _ _ _ more ih => exact closesOpened_cons Item.noConfusion ih
  | case7 => exact closesOpened_cons Item.noConfusion (closesOpened_unclosed _ _)
  | case8 => exact closesOpened_cons Item.noConfusion (closesOpened_unclosed _ _)
  | case9 _ _ _ _ _ _ _ _ _ _ _ _ _ _ _ _ head pair more ih =>
    exact closesOpened_notes head.notes (closesOpened_cons Item.noConfusion ih)

end Line

namespace Builder

open Line LineState

/-- What holds between two items of a line. -/
structure LineState.InBounds (state : LineState) : Prop where
  levels_ne_nil : state.levels ≠ []
  /-- The levels are no fewer than at the beginning of the innermost group. -/
  group_le : ∀ n ∈ state.groups.head?, n ≤ state.levels.length
  /-- A group has no fewer levels at its beginning than those around it. -/
  nested : state.groups.Pairwise (· ≥ ·)
  group_pos : ∀ n ∈ state.groups, 0 < n

namespace LineState

variable {state : LineState}

namespace InBounds

theorem initial (block : PairId) : (initial block).InBounds := by
  refine ⟨cons_ne_nil _ _, fun n hn => ?_, .nil, fun n hn => ?_⟩
  · cases hn
  · cases hn

section

variable (h : state.InBounds)

include h

theorem length_pos : 0 < state.levels.length := length_pos_iff.mpr h.levels_ne_nil

theorem le_length {n : Nat} (hn : n ∈ state.groups) : n ≤ state.levels.length := by
  cases hgroups : state.groups with
  | nil =>
    rw [hgroups] at hn
    cases hn
  | cons m groups =>
    have hm : m ≤ state.levels.length := h.group_le m (hgroups ▸ rfl)
    have hnested := h.nested
    rw [hgroups] at hn hnested
    rcases mem_cons.mp hn with rfl | hn
    · exact hm
    · exact ((pairwise_cons.mp hnested).1 n hn).trans hm

theorem separate : state.separate.InBounds := by
  unfold LineState.separate
  split
  · have hfloor : 0 < state.groups.head?.getD 1 := by
      cases hhead : state.groups.head? with
      | none => exact Nat.one_pos
      | some n => exact h.group_pos n (mem_of_head? hhead)
    have hpos := h.length_pos
    refine ⟨length_pos_iff.mp ?_, fun n hn => ?_, h.nested, h.group_pos⟩
    · rw [length_take]
      omega
    · have hle := h.group_le n hn
      have hhead : state.groups.head? = some n := hn
      rw [length_take, hhead, Option.getD_some]
      omega
  · exact h

theorem openGroup : state.openGroup.InBounds where
  levels_ne_nil := h.levels_ne_nil
  group_le := by
    rintro n ⟨⟩
    exact le_rfl
  nested := pairwise_cons.mpr ⟨fun _ hn => h.le_length hn, h.nested⟩
  group_pos := forall_mem_cons.mpr ⟨h.length_pos, h.group_pos⟩

theorem closeGroup : state.closeGroup.InBounds := by
  unfold LineState.closeGroup
  split
  · exact h
  · rename_i length groups hgroups
    have hle : length ≤ state.levels.length := h.group_le length (hgroups ▸ rfl)
    have hnested := h.nested
    have hpos := h.group_pos
    rw [hgroups] at hnested hpos
    obtain ⟨houter, hnested⟩ := pairwise_cons.mp hnested
    obtain ⟨hlength, hpos⟩ := forall_mem_cons.mp hpos
    have htake : (state.levels.take length).length = length := length_take_of_le hle
    refine ⟨length_pos_iff.mp (Nat.lt_of_lt_of_eq hlength htake.symm), fun n hn => ?_, hnested, hpos⟩
    exact (houter n (mem_of_head? hn)).trans htake.symm.le

theorem enter (id : PairId) (item : PairItem) : (state.enter id item).InBounds := by
  unfold LineState.enter
  split
  · refine ⟨append_ne_nil_of_left_ne_nil h.levels_ne_nil _, fun n hn => ?_, h.nested, h.group_pos⟩
    rw [length_append]
    exact Nat.le_add_right_of_le (h.group_le n hn)
  · exact ⟨h.levels_ne_nil, h.group_le, h.nested, h.group_pos⟩

end

end InBounds

/-- What holds behind a part of the items of a line, with `rest` to come. There is a current pair as
    soon as a pair was added, so that the reader and the builder agree on whether the line opens a block. -/
structure Amid (items : List Item) (state : LineState) (rest : List Item) : Prop extends state.InBounds where
  isSome_current : state.isChained = true → state.current.isSome = true
  any_isPair : (state.current.isSome || rest.any Item.isPair) = items.any Item.isPair
  closesOpened : ClosesOpened state.groups.length rest

section

variable (state)

theorem separate_eq_with : ∃ levels, state.separate = { state with levels } := by
  unfold separate
  split
  · exact ⟨_, rfl⟩
  · exact ⟨state.levels, rfl⟩

theorem length_groups_closeGroup : state.closeGroup.groups.length = state.groups.length - 1 := by
  unfold closeGroup
  split
  · rename_i hgroups
    rw [hgroups]
    rfl
  · rename_i hgroups
    rw [hgroups]
    rfl

theorem isChained_closeGroup : state.closeGroup.isChained = state.isChained := by
  unfold closeGroup
  split <;> rfl

end

theorem isSome_current_closeGroup (h : state.isChained → state.current.isSome) :
    state.closeGroup.current.isSome = state.current.isSome := by
  unfold closeGroup
  split
  · rfl
  · dsimp only
    split
    · rename_i hchain
      obtain ⟨hchained, hlength⟩ := Bool.and_eq_true_iff.mp hchain
      rw [h hchained, getLast?_isSome]
      exact length_pos_iff.mp (Nat.one_pos.trans (of_decide_eq_true hlength))
    · rfl

theorem enter_eq_with (state : LineState) (id : PairId) (item : PairItem) : ∃ levels isChained, state.enter id item =
    { state with levels, isChained, lastLevel := state.levels.length, current := some id } := by
  unfold enter
  split
  · exact ⟨_, _, rfl⟩
  · exact ⟨_, _, rfl⟩

end LineState

variable {site : Site} {b b' : Builder} {state state' : LineState} {items rest : List Item} {block : PairId}
  {depth : Nat} {lead : Span}

theorem addItem_amid (h : state.Amid items (item :: rest))
    (hadd : b.addItem site block state item = .ok (b', state')) : state'.Amid items rest := by
  have hchained := h.isSome_current
  have hany := h.any_isPair
  obtain ⟨-, hcloses⟩ := h.closesOpened
  rw [any_cons] at hany
  cases item with
  | separator =>
    cases hadd
    obtain ⟨levels, heq⟩ := state.separate_eq_with
    have hbounds := h.toInBounds.separate
    rw [heq] at hbounds ⊢
    exact ⟨hbounds, hchained, hany, hcloses⟩
  | openGroup =>
    cases hadd
    exact ⟨h.toInBounds.openGroup, hchained, hany, hcloses⟩
  | closeGroup =>
    cases hadd
    refine ⟨h.toInBounds.closeGroup, ?_, ?_, ?_⟩
    · rw [state.isChained_closeGroup, isSome_current_closeGroup hchained]
      exact hchained
    · rw [isSome_current_closeGroup hchained]
      exact hany
    · rw [state.length_groups_closeGroup]
      exact hcloses
  | note note =>
    cases hadd
    exact ⟨h.toInBounds, hchained, hany, hcloses⟩
  | comment comment =>
    rw [addItem, bind_eq_ok] at hadd
    obtain ⟨c, -, hc⟩ := hadd
    cases hc
    exact ⟨h.toInBounds, hchained, hany, hcloses⟩
  | pair item =>
    rw [addItem, bind_eq_ok] at hadd
    obtain ⟨⟨id, c⟩, -, hc⟩ := hadd
    cases hc
    obtain ⟨levels, isChained, heq⟩ := state.enter_eq_with id item
    have hbounds := h.toInBounds.enter id item
    rw [heq] at hbounds ⊢
    refine ⟨hbounds, fun _ => rfl, ?_, hcloses⟩
    rw [← hany]
    cases state.current.isSome <;> rfl

theorem addItems_amid {done : List Item} (hcloses : ClosesOpened 0 (done ++ rest))
    (hadd : b.addItems site block done = .ok (b', state)) : state.Amid (done ++ rest) rest :=
  foldlM_ok_induction_rest (P := fun s left => s.2.Amid (done ++ rest) left)
    (fun _ _ _ _ hs hstep => addItem_amid hs hstep)
    ⟨.initial block, fun hchained => absurd hchained Bool.false_ne_true, rfl, hcloses⟩ hadd

theorem addComments_blocks {lines : List Line} (hlines : ∀ line ∈ lines, ∃ depth found, line = .comments depth found)
    (h : lines.foldlM (addLine site) b = .ok b') : b'.blocks = b.blocks := by
  refine foldlM_ok_induction (P := fun c : Builder => c.blocks = b.blocks) (fun c line hline c' hc hstep => ?_) rfl h
  obtain ⟨depth, found, rfl⟩ := hlines line hline
  exact (addComments_draws (n := 0) hstep).blocks_eq.trans hc

/-- A line leaves the blocks above it, its own one, and one for its last pair. -/
theorem addContent_blocks (hcloses : ClosesOpened 0 items) (hdepth : depth < b.blocks.length)
    (h : addLine site b (.content depth lead items) = .ok b') :
    b'.blocks.length = (if items.any Item.isPair then depth + 1 else depth) + 1 ∧
      (b.blocks.head? = some site.root → b'.blocks.head? = some site.root) := by
  simp only [addLine] at h
  rw [bind_eq_ok] at h
  obtain ⟨⟨c, state⟩, hitems, h⟩ := h
  cases h
  have hblocks := (addItems_draws hitems).blocks_eq.trans (b.lineBlock_draws (n := 0) site depth lead).blocks_eq
  have hcurrent : state.current.isSome = items.any Item.isPair := by
    rw [← append_nil items] at hcloses
    have hany := (addItems_amid hcloses hitems).any_isPair
    rwa [any_nil, Bool.or_false, append_nil] at hany
  constructor
  · have hlength : state.current.toList.length = if items.any Item.isPair then 1 else 0 := by
      rw [← hcurrent]
      cases state.current <;> rfl
    simp only [hblocks, length_append, length_take, length_singleton, hlength]
    split <;> omega
  · intro hhead
    rcases Nat.eq_zero_or_pos depth with rfl | hpos
    · have hroot : b.blockAt site 0 = site.root := by
        rw [blockAt, ← head?_eq_getElem?, hhead]
        rfl
      simp [lineBlock, hroot]
    · simp only [hblocks, append_assoc, head?_append, head?_take, if_neg (ne_of_gt hpos), hhead]
      rfl

/-- All that a line is put into is there: the block at its depth, and between any two items the level
    of the next one and the groups that are closed. -/
def Admits (site : Site) (b : Builder) : Line → Prop
  | .comments depth _ => depth < b.blocks.length
  | .rejected _ => True
  | .content depth lead items => depth < b.blocks.length ∧
    ∀ done rest c state, items = done ++ rest →
      (b.lineBlock site depth lead).2.addItems site (b.lineBlock site depth lead).1 done = .ok (c, state) →
      state.InBounds ∧ (rest.head? = some .closeGroup → state.groups ≠ [])

theorem admits_content (hcloses : ClosesOpened 0 items)
    (hdepth : depth < b.blocks.length) : b.Admits site (.content depth lead items) := by
  refine ⟨hdepth, ?_⟩
  rintro done rest c state rfl hadd
  have hamid := addItems_amid hcloses hadd
  refine ⟨hamid.toInBounds, fun hnext => ?_⟩
  cases rest with
  | nil => cases hnext
  | cons item rest =>
    cases hnext
    exact length_pos_iff.mp (hamid.closesOpened.1 rfl)

/-- What holds before each line. -/
structure ModuleState.InBounds (site : Site) (s : ModuleState) : Prop where
  head_blocks : s.builder.blocks.head? = some site.root
  length_blocks : s.builder.blocks.length = s.layout.openBlocks + 1
  unit_pos : ∀ unit ∈ s.layout.unit, 0 < unit.width

namespace ModuleState.InBounds

variable {stop : Position} {s next : ModuleState}

section

variable (h : s.InBounds site) {depth : Nat}

include h

theorem lt_length_blocks (hdepth : depth ≤ s.layout.openBlocks) : depth < s.builder.blocks.length := by
  rw [h.length_blocks]
  exact Nat.lt_succ_of_le hdepth

theorem measure {unit : Option IndentUnit} (hmeasure : s.layout.measure indent span = .ok (depth, unit)) :
    depth < s.builder.blocks.length ∧ ∀ u ∈ unit, 0 < u.width := by
  obtain ⟨hdepth, rfl | ⟨isTab, width, rfl, hwidth⟩⟩ := Layout.measure_eq_ok hmeasure
  · exact ⟨h.lt_length_blocks hdepth, h.unit_pos⟩
  · refine ⟨h.lt_length_blocks hdepth, ?_⟩
    rintro u ⟨⟩
    exact hwidth

theorem of_eq (hblocks : next.builder.blocks = s.builder.blocks)
    (hlayout : next.layout = s.layout) : next.InBounds site where
  head_blocks := hblocks ▸ h.head_blocks
  length_blocks := by
    rw [hblocks, hlayout]
    exact h.length_blocks
  unit_pos := hlayout ▸ h.unit_pos

/-- Each of the lines that are read together finds what it is put into. -/
theorem admits {before after : List Line} {line : Line}
    (hlines : (readLine stop s.layout s.rest).lines = before ++ line :: after)
    (hadd : before.foldlM (addLine site) s.builder = .ok b) : b.Admits site line := by
  obtain ⟨leading, hleading, hcases⟩ := readLine_cases stop s.layout s.rest
  have hcomments : ∀ line ∈ leading, ∃ depth found, line = .comments depth found :=
    fun line hline => ⟨_, hleading line hline⟩
  -- Up to the line there are only comments, which leave the blocks as they are.
  have hopen : (∀ other ∈ before, other ∈ leading) →
      ∀ {depth}, depth ≤ s.layout.openBlocks → depth < b.blocks.length := by
    intro hbefore depth hdepth
    rw [addComments_blocks (fun other hother => hcomments other (hbefore other hother)) hadd]
    exact h.lt_length_blocks hdepth
  have hfront : ∀ after, leading = before ++ line :: after → b.Admits site line := by
    rintro after rfl
    obtain ⟨found, rfl⟩ := hleading line (mem_append_right _ mem_cons_self)
    exact hopen (fun other hother => mem_append_left _ hother) (s.layout.commentDepth_le _)
  have hlast : ∀ last, (readLine stop s.layout s.rest).lines = leading ++ [last] →
      (before = leading → b.Admits site last) → b.Admits site line := by
    intro last heq hadmits
    rw [hlines] at heq
    rcases eq_nil_or_concat after with rfl | ⟨more, other, rfl⟩
    · obtain ⟨hbefore, hline⟩ := append_inj' heq rfl
      cases hline
      exact hadmits hbefore
    · rw [concat_eq_append, ← cons_append, ← append_assoc] at heq
      exact hfront more (append_inj_left' heq rfl).symm
  rcases hcases with ⟨heq, -⟩ | ⟨_, note, -, heq, -⟩ | ⟨span, depth, unit, lead, margin, behind, hmeasure, heq, -⟩
  · exact hfront after (heq.symm.trans hlines)
  · exact hlast _ heq fun _ => trivial
  · refine hlast _ heq fun hbefore => admits_content (readItems_closesOpened stop margin [] false behind) ?_
    exact hopen (fun other hother => hbefore ▸ hother) (Layout.measure_eq_ok hmeasure).1

theorem goesOn (hstep : (moduleLoop stop site).GoesOn s next) : next.InBounds site := by
  obtain ⟨add, hround⟩ := hstep
  simp only [moduleLoop] at hround
  split at hround
  · cases hround
  split at hround
  swap
  · cases hround
  rename_i b hadd
  cases hround
  obtain ⟨leading, hleading, hcases⟩ := readLine_cases stop s.layout s.rest
  have hkept : ∀ {c}, leading.foldlM (addLine site) s.builder = .ok c → c.blocks = s.builder.blocks :=
    addComments_blocks fun line hline => ⟨_, hleading line hline⟩
  have hlast : ∀ {last}, (leading ++ [last]).foldlM (addLine site) s.builder = .ok b →
      ∃ c, c.blocks = s.builder.blocks ∧ addLine site c last = .ok b := by
    intro last hadd
    rw [foldlM_append, bind_eq_ok] at hadd
    obtain ⟨c, hc, hadd⟩ := hadd
    rw [foldlM_cons, bind_eq_ok] at hadd
    obtain ⟨d, hd, hdone⟩ := hadd
    cases hdone
    exact ⟨c, hkept hc, hd⟩
  rcases hcases with ⟨heq, hlayout⟩ | ⟨_, note, -, heq, hlayout⟩ |
    ⟨span, depth, unit, lead, margin, behind, hmeasure, heq, hlayout⟩
  · exact h.of_eq (hkept (heq ▸ hadd)) hlayout
  · obtain ⟨c, hblocks, hc⟩ := hlast (heq ▸ hadd)
    cases hc
    exact h.of_eq hblocks hlayout
  · obtain ⟨c, hblocks, hc⟩ := hlast (heq ▸ hadd)
    obtain ⟨hdepth, hunit⟩ := h.measure hmeasure
    obtain ⟨hlength, hhead⟩ := addContent_blocks
      (readItems_closesOpened stop margin [] false behind) (hblocks ▸ hdepth) hc
    exact ⟨hhead (hblocks ▸ h.head_blocks), hlayout ▸ hlength, hlayout ▸ hunit⟩

theorem run (hsteps : ReflTransGen (moduleLoop stop site).GoesOn s next) : next.InBounds site := by
  induction hsteps with
  | refl => exact h
  | tail _ hstep ih => exact ih.goesOn hstep

end

end ModuleState.InBounds

/-- Whatever the text and the format, before each line the module is the first of the open blocks, the
    depths of lines and comments are below their number, and an indent unit is not empty. While the
    lines are put together, each finds the block, the levels and the groups that it is put into. -/
theorem reading_stays_in_bounds (set : ModuleSet) (file : String) (format : Format) (text : List Char)
    {s : ModuleState} (h : Relation.ReflTransGen
      (moduleLoop (Cursor.ofList text).stop (set.nextSite file format)).GoesOn
      ⟨set.opened file format, .initial, (Cursor.ofList text).ahead⟩ s) :
    s.InBounds (set.nextSite file format) ∧
    (∀ indent span depth unit, s.layout.measure indent span = .ok (depth, unit) →
      depth < s.builder.blocks.length ∧ ∀ u ∈ unit, 0 < u.width) ∧
    (∀ width, s.layout.commentDepth width < s.builder.blocks.length) ∧
    ∀ before line after b, (readLine (Cursor.ofList text).stop s.layout s.rest).lines = before ++ line :: after →
      before.foldlM (addLine (set.nextSite file format)) s.builder = .ok b →
      b.Admits (set.nextSite file format) line := by
  have hfirst : ModuleState.InBounds (set.nextSite file format)
      ⟨set.opened file format, .initial, (Cursor.ofList text).ahead⟩ := by
    refine ⟨rfl, rfl, fun unit hunit => ?_⟩
    cases hunit
  have hbounds := hfirst.run h
  exact ⟨hbounds, fun _ _ _ _ => hbounds.measure,
    fun width => hbounds.lt_length_blocks (s.layout.commentDepth_le width), fun _ _ _ _ => hbounds.admits⟩

def closedGroups : Line → Nat
  | .comments _ _ => 0
  | .rejected _ => 0
  | .content _ _ items => items.count .closeGroup

/-- An indented line with groups in a group follows one that leaves a block open. -/
def nestedGroupsText : List Char := "!d:\n    a: (x, y: z)\n    b: (p: (q, r: s), t)\n".toList

theorem nestedGroupsText_in_bounds : ∃ s line, Relation.ReflTransGen
      (moduleLoop (Cursor.ofList nestedGroupsText).stop (ModuleSet.empty.nextSite "a.pjson" .json)).GoesOn
      ⟨ModuleSet.empty.opened "a.pjson" .json, .initial, (Cursor.ofList nestedGroupsText).ahead⟩ s ∧
    (readLine (Cursor.ofList nestedGroupsText).stop s.layout s.rest).lines = [line] ∧ closedGroups line = 2 ∧
    s.builder.blocks.length = 3 ∧ s.layout.commentDepth 9 < 3 ∧
    s.builder.Admits (ModuleSet.empty.nextSite "a.pjson" .json) line := by
  obtain ⟨s, hsteps, hcheck⟩ := Loop.exists_of_after
    (show ((moduleLoop (Cursor.ofList nestedGroupsText).stop (ModuleSet.empty.nextSite "a.pjson" .json)).after 2
        ⟨ModuleSet.empty.opened "a.pjson" .json, .initial, (Cursor.ofList nestedGroupsText).ahead⟩).any (fun s =>
      (readLine (Cursor.ofList nestedGroupsText).stop s.layout s.rest).lines.map closedGroups = [2] ∧
        s.builder.blocks.length = 3) = true by decide +kernel)
  obtain ⟨hclosed, hlength⟩ := of_decide_eq_true hcheck
  obtain ⟨line, hline, htwo⟩ := List.map_eq_singleton_iff.mp hclosed
  obtain ⟨-, -, hcomments, hadmits⟩ := reading_stays_in_bounds .empty "a.pjson" .json nestedGroupsText hsteps
  exact ⟨s, line, hsteps, hline, htwo, hlength, hlength ▸ hcomments 9, hadmits [] line [] s.builder hline rfl⟩

end Builder

end PairMarkup
