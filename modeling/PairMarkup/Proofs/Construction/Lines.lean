import PairMarkup.Proofs.Construction.Values

namespace PairMarkup

open List

/-- What each of several things keeps that lie one behind the other in a text, where the invariant may
    say how far the text has come. -/
theorem InOrder.foldlM_induction {ε α β : Type} {Lies : List Glyph → List Glyph → α → Prop}
    {f : β → α → Except ε β} {P : List Glyph → β → Prop} {xs : List α} {gs rest : List Glyph} {b b' : β}
    (hin : InOrder Lies gs xs rest) (hrest : ∀ gs rest b, rest <:+ gs → P gs b → P rest b)
    (hstep : ∀ x ∈ xs, ∀ gs rest b b', Lies gs rest x → P gs b → f b x = .ok b' → P rest b')
    (hb : P gs b) (hok : xs.foldlM f b = .ok b') : P rest b' := by
  induction xs generalizing gs b with
  | nil =>
    cases hok
    exact hrest gs rest _ hin hb
  | cons x xs ih =>
    obtain ⟨mid, hx, hxs⟩ := hin
    rw [foldlM_cons, bind_eq_ok] at hok
    obtain ⟨next, hnext, hok⟩ := hok
    exact ih hxs (fun y hy => hstep y (mem_cons_of_mem _ hy)) (hstep x mem_cons_self gs mid b next hx hb hnext) hok

namespace Builder

open PairTree

variable {stop : Position} {modules : List PairId} {site : Site} {gs mid rest : List Glyph}
  {b b' b'' : Builder} {block : PairId}

/-- Every step of building keeps what is said of the tree and of how far the text has come: nothing is put anywhere,
    a pair outside of the tree is made, or a comment or a pair is put into a pair of the module. -/
structure Carries (modules : List PairId) (stop : Position) (site : Site) (P : List Glyph → PairTree → Prop) :
    Prop where
  skip : ∀ {gs rest t}, P gs t → rest <:+ gs → P rest t
  orphan : ∀ {gs} {b : Builder} position, P gs b.tree → b.tree.Parsed modules → P gs (b.addOrphan site position).2.tree
  comment : ∀ {gs rest} {b b' : Builder} {parent} {comment : Comment}, P gs b.tree → b.tree.Parsed modules →
    parent < b.tree.size → comment.span.Fills stop gs rest → b.addComment site parent comment = .ok b' → P rest b'.tree
  pair : ∀ {gs rest} {b b' : Builder} {parent inGroup} {item : PairItem} {id}, P gs b.tree → b.tree.Parsed modules →
    b.tree.Apart site.root → parent < b.tree.size → site.root ≤ parent → item.LiesIn stop gs rest →
    b.addPair site parent inGroup item = .ok (id, b') → P rest b'.tree

/-- What was read between `gs` and `rest` is put into the tree, and the tree stays as reading makes it. -/
structure Writes (modules : List PairId) (stop : Position) (site : Site) (gs rest : List Glyph)
    (b b' : Builder) : Prop where
  grows : Grows modules b b'
  adds : Adds stop site.root gs rest b.tree b'.tree
  carries : ∀ {P}, Carries modules stop site P → P gs b.tree → P rest b'.tree

namespace Writes

theorem of_tree_eq (h : b.tree.Parsed modules) (htree : b'.tree = b.tree) (hblocks : b'.blocks = b.blocks)
    (hrest : rest <:+ gs) : Writes modules stop site gs rest b b' where
  grows := (Leads.of_tree_eq h htree hblocks).toGrows
  adds := by
    rw [htree]
    exact .refl site.root hrest b.tree
  carries hP hgs := by
    rw [htree]
    exact hP.skip hgs hrest

theorem trans (h : Writes modules stop site gs mid b b') (h' : Writes modules stop site mid rest b' b'') :
    Writes modules stop site gs rest b b'' where
  grows := h.grows.trans h'.grows
  adds := h.adds.trans h'.adds h.grows.parsed.wellFormed
  carries hP hgs := h'.carries hP (h.carries hP hgs)

theorem of_suffix_right {rest' : List Glyph} (h : Writes modules stop site gs rest b b')
    (hrest : rest' <:+ rest) : Writes modules stop site gs rest' b b' :=
  h.trans (of_tree_eq h.grows.parsed rfl rfl hrest)

theorem of_suffix_left {gs' : List Glyph} (h : Writes modules stop site gs rest b b')
    (hparsed : b.tree.Parsed modules) (hgs : gs <:+ gs') : Writes modules stop site gs' rest b b' :=
  (of_tree_eq hparsed rfl rfl hgs).trans h

theorem apart (h : Writes modules stop site gs rest b b') (hparsed : b.tree.Parsed modules)
    (happart : b.tree.Apart site.root) : b'.tree.Apart site.root :=
  happart.of_before hparsed.wellFormed h.grows.parsed.wellFormed h.adds.before

end Writes

theorem addItem_writes (h : b.tree.Parsed modules) (hmodule : site.root ∈ modules)
    (happart : b.tree.Apart site.root) (hblock : block < b.tree.size)
    (hroot : site.root ≤ block) {state state' : LineState} (hstate : state.Within b.tree.size)
    (habove : state.All (site.root ≤ ·)) {item : Item}
    (hlies : item.LiesIn stop gs rest) (hok : addItem site block b state item = .ok (b', state')) :
    Writes modules stop site gs rest b b' ∧ state'.All (site.root ≤ ·) := by
  obtain ⟨hgrows, -⟩ := addItem_grows h hmodule hblock hstate hok
  have hcontainer := hstate.container hblock
  have habove' := habove.container hroot
  cases item with
  | separator =>
    cases hok
    exact ⟨.of_tree_eq h rfl rfl hlies, habove.separate⟩
  | openGroup =>
    cases hok
    exact ⟨.of_tree_eq h rfl rfl hlies, habove.openGroup⟩
  | closeGroup =>
    cases hok
    exact ⟨.of_tree_eq h rfl rfl hlies, habove.closeGroup⟩
  | note note =>
    cases hok
    exact ⟨.of_tree_eq h rfl rfl hlies, habove⟩
  | comment comment =>
    rw [addItem, bind_eq_ok] at hok
    obtain ⟨c, hc, hok⟩ := hok
    cases hok
    exact ⟨⟨hgrows, addComment_adds hcontainer habove' hlies hc, fun hP hgs => hP.comment hgs h hcontainer hlies hc⟩,
      habove⟩
  | pair item =>
    rw [addItem, bind_eq_ok] at hok
    obtain ⟨⟨id, c⟩, hc, hok⟩ := hok
    cases hok
    obtain ⟨start, after, hstart, hafter, hitem⟩ := hlies
    obtain ⟨hadds, rfl⟩ := addPair_adds h hmodule happart hcontainer habove' hitem hc
    have hwrites : Writes modules stop site start after b b' :=
      ⟨hgrows, hadds, fun hP hgs => hP.pair hgs h happart hcontainer habove' hitem hc⟩
    refine ⟨(hwrites.of_suffix_left h hstart).of_suffix_right hafter, habove.enter ?_ item⟩
    exact hroot.trans hblock.le

theorem addItems_writes (h : b.tree.Parsed modules) (hmodule : site.root ∈ modules)
    (happart : b.tree.Apart site.root) (hblock : block < b.tree.size)
    (hroot : site.root ≤ block) {items : List Item}
    (hlies : InOrder (Item.LiesIn stop) gs items rest) {state : LineState}
    (hok : addItems site block b items = .ok (b', state)) :
    Writes modules stop site gs rest b b' ∧ state.All (site.root ≤ ·) := by
  have hall : Writes modules stop site gs rest b b' ∧ state.Within b'.tree.size ∧ state.All (site.root ≤ ·) := by
    refine hlies.foldlM_induction (P := fun gs' s => Writes modules stop site gs gs' b s.1 ∧
      s.2.Within s.1.tree.size ∧ s.2.All (site.root ≤ ·)) ?_ ?_
      ⟨.of_tree_eq h rfl rfl (suffix_refl _), .initial hblock, .initial hroot⟩ hok
    · rintro gs' rest s hrest ⟨hwrites, hstate⟩
      exact ⟨hwrites.of_suffix_right hrest, hstate⟩
    · rintro item - gs' rest ⟨c, state⟩ ⟨c', state'⟩ hlies ⟨hwrites, hstate, habove⟩ hstep
      have hblock := hblock.trans_le hwrites.grows.size_le
      obtain ⟨-, hstate'⟩ := addItem_grows hwrites.grows.parsed hmodule hblock hstate hstep
      obtain ⟨hadded, habove'⟩ := addItem_writes hwrites.grows.parsed hmodule (hwrites.apart h happart)
        hblock hroot hstate habove hlies hstep
      exact ⟨hwrites.trans hadded, hstate', habove'⟩
  exact ⟨hall.1, hall.2.2⟩

/-- What holds between the lines of a module. -/
structure Ahead (modules : List PairId) (site : Site) (b : Builder) : Prop extends Sound modules b where
  apart : b.tree.Apart site.root
  le_blocks : ∀ x ∈ b.blocks, site.root ≤ x

namespace Ahead

section

variable (h : b.Ahead modules site)

include h

theorem le_blockAt (depth : Nat) : site.root ≤ b.blockAt site depth := by
  unfold blockAt
  cases hblock : b.blocks[depth]? with
  | none => exact le_rfl
  | some x => exact h.le_blocks x (mem_of_getElem? hblock)

theorem writes (hwrites : Writes modules stop site gs rest b b') : b'.Ahead modules site where
  toSound := h.toSound.grows hwrites.grows
  apart := hwrites.apart h.parsed h.apart
  le_blocks x hx := h.le_blocks x (hwrites.grows.blocks_eq ▸ hx)

variable (hmodule : site.root ∈ modules)

include hmodule

/-- Where a line may not be put anywhere, a pair outside of the tree takes it. -/
theorem lineBlock_writes (depth : Nat)
    {lead : Span} (hlead : Span.LiesIn stop gs rest (.point lead.stop)) (hrest : rest <:+ gs) :
    Writes modules stop site gs rest b (b.lineBlock site depth lead).2 ∧
      site.root ≤ (b.lineBlock site depth lead).1 := by
  obtain ⟨hgrows, -⟩ := h.lineBlock_grows hmodule depth lead
  have hle := (h.parsed.module_lt_size hmodule).le
  simp only [lineBlock] at hgrows ⊢
  split at hgrows
  · rename_i hcond
    rw [if_pos hcond]
    refine ⟨⟨hgrows, ?_, fun hP hgs => hP.skip (hP.orphan lead.stop hgs h.parsed) hrest⟩, hle⟩
    have hhangs : Hangs site.root (·.IsHolder stop gs rest) (fun _ => []) b.tree
        (b.tree.add (.bare .element (.point lead.stop) site.file site.fileIndex)).2 :=
      add_hangs rfl ⟨rfl, rfl, .inl rfl, hlead, hlead⟩ hle
    exact hhangs.adds (fun _ _ hc => absurd hc not_mem_nil) (fun _ => hrest) fun x hx hlt =>
      made_of_isHolder (hhangs.fits x hx hlt) hrest
  · rename_i hcond
    rw [if_neg hcond]
    exact ⟨.of_tree_eq h.parsed rfl rfl hrest, h.le_blockAt depth⟩

theorem addComments_writes {depth : Nat} {comments : List Comment}
    (hlies : InOrder (fun gs rest (c : Comment) => c.span.Fills stop gs rest) gs comments rest)
    (hok : comments.foldlM (fun b c => b.addComment site (b.blockAt site depth) c) b = .ok b') :
    Writes modules stop site gs rest b b' := by
  refine hlies.foldlM_induction (P := fun gs' c => Writes modules stop site gs gs' b c) ?_ ?_
    (.of_tree_eq h.parsed rfl rfl (suffix_refl _)) hok
  · exact fun gs' rest c hrest hwrites => hwrites.of_suffix_right hrest
  · intro comment _ gs' rest c c' hlies hwrites hstep
    have hc := h.writes hwrites
    have hlt := hc.blockAt_lt hmodule depth
    exact hwrites.trans ⟨(addComment_leads hc.parsed hlt hstep).toGrows,
      addComment_adds hlt (hc.le_blockAt depth) hlies hstep, fun hP hgs => hP.comment hgs hc.parsed hlt hlies hstep⟩

theorem addLine_writes {line : Line} (hlies : line.LiesIn stop gs rest) (hok : addLine site b line = .ok b') :
    Adds stop site.root gs rest b.tree b'.tree ∧ b'.Ahead modules site ∧
      ∀ {P}, Carries modules stop site P → P gs b.tree → P rest b'.tree := by
  have hline := addLine_sound h.toSound hmodule hok
  cases line with
  | rejected note =>
    cases hok
    have hwrites : Writes modules stop site gs rest b (b.report site note) := .of_tree_eq h.parsed rfl rfl hlies
    exact ⟨hwrites.adds, h.writes hwrites, hwrites.carries⟩
  | comments depth comments =>
    have hwrites := h.addComments_writes hmodule hlies hok
    exact ⟨hwrites.adds, h.writes hwrites, hwrites.carries⟩
  | content depth lead items =>
    simp only [addLine] at hok
    rw [bind_eq_ok] at hok
    obtain ⟨⟨c, state⟩, hitems, hok⟩ := hok
    cases hok
    obtain ⟨start, hlead, hstart, hitemsLie⟩ := hlies
    obtain ⟨hgrows, hlt⟩ := h.lineBlock_grows hmodule depth lead
    obtain ⟨hblock, hle⟩ := h.lineBlock_writes hmodule depth hlead hstart
    have hnext := h.writes hblock
    obtain ⟨hwrites, hstate⟩ := addItems_writes hnext.parsed hmodule hnext.apart hlt hle hitemsLie hitems
    have hall := hblock.trans hwrites
    refine ⟨hall.adds, ⟨hline, hall.apart h.parsed h.apart, fun x hx => ?_⟩, hall.carries⟩
    simp only [mem_append, mem_singleton, Option.mem_toList] at hx
    rcases hx with (hx | rfl) | hx
    · exact (h.writes hall).le_blocks x (mem_of_mem_take hx)
    · exact hle
    · exact hstate.current x hx

theorem addLines_adds {lines : List Line} (hlies : InOrder (Line.LiesIn stop) gs lines rest)
    (hok : lines.foldlM (addLine site) b = .ok b') :
    Adds stop site.root gs rest b.tree b'.tree ∧ b'.Ahead modules site ∧
      ∀ {P}, Carries modules stop site P → P gs b.tree → P rest b'.tree := by
  refine hlies.foldlM_induction (P := fun gs' c => Adds stop site.root gs gs' b.tree c.tree ∧ c.Ahead modules site ∧
    ∀ {P}, Carries modules stop site P → P gs b.tree → P gs' c.tree) ?_ ?_
    ⟨.refl site.root (suffix_refl _) b.tree, h, fun _ hgs => hgs⟩ hok
  · rintro gs' rest c hrest ⟨hadds, hc, hcarries⟩
    exact ⟨hadds.trans (.refl site.root hrest c.tree) hc.parsed.wellFormed, hc, fun hP hgs =>
      hP.skip (hcarries hP hgs) hrest⟩
  · rintro line - gs' rest c c' hlies ⟨hadds, hc, hcarries⟩ hstep
    obtain ⟨hadded, hc', hcarries'⟩ := hc.addLine_writes hmodule hlies hstep
    exact ⟨hadds.trans hadded hc.parsed.wellFormed, hc', fun hP hgs => hcarries' hP (hcarries hP hgs)⟩

end

end Ahead

end Builder

end PairMarkup
