import PairMarkup.Proofs.Outline.Reading

namespace PairMarkup

open List

mutual

/-- An entry and all below it on one row. -/
def Entry.inline : Entry → List Char
  | block name entries => name.chars ++ ':' :: ' ' :: '(' :: (inlineAll entries ++ [')'])
  | leaf name value => name.chars ++ Phrase.written (some value)

def Entry.inlineAll : List Entry → List Char
  | [] => []
  | entry :: entries => entry.inline ++ inlineRest entries

/-- The entries that follow another one. -/
def Entry.inlineRest : List Entry → List Char
  | [] => []
  | entry :: entries => ',' :: ' ' :: (entry.inline ++ inlineRest entries)

end

/-- The rows of an outline, each with an entry that is below no other. -/
def Entry.inlinePage (outline : List Entry) : List Char := Line.joinWith '\n' (outline.map inline)

mutual

/-- The items are those of the entry and of all below it. -/
def Entry.Itemized : Entry → List Item → Prop
  | block name entries, items => ∃ item : PairItem, ∃ below, item.Says name none ∧ ItemizedAll entries below ∧
      items = .pair item :: .openGroup :: (below ++ [.closeGroup])
  | leaf name value, items => ∃ item : PairItem, item.Says name (some value) ∧ items = [.pair item]

def Entry.ItemizedAll : List Entry → List Item → Prop
  | [], items => items = []
  | entry :: entries, items => ∃ first more, entry.Itemized first ∧ ItemizedRest entries more ∧
      items = first ++ more

def Entry.ItemizedRest : List Entry → List Item → Prop
  | [], items => items = []
  | entry :: entries, items => ∃ first more, entry.Itemized first ∧ ItemizedRest entries more ∧
      items = .separator :: (first ++ more)

end

namespace Line

open Glyph

variable (stop : Position) (margin : Margin) (groups : List Position) (complete : Bool) {g : Glyph}

theorem readItems_space (hg : g.char = ' ') (gs : List Glyph) :
    readItems stop margin groups complete (g :: gs) = readItems stop margin groups complete gs := by
  have hblanks : dropBlanks (g :: gs) = dropBlanks gs :=
    dropWhile_cons_of_pos (by simp [isBlank_char, Text.isBlank, hg])
  cases hrest : dropBlanks gs with
  | nil => rw [readItems_of_nil hrest, readItems_of_nil (hblanks.trans hrest)]
  | cons next rest => rw [readItems_of_cons hrest, readItems_of_cons (hblanks.trans hrest)]

/-- A sign is no blank and no line break, and no comment begins with it. -/
theorem not_layout_of_sign (hg : g.char = ',' ∨ g.char = '(' ∨ g.char = ')') (gs : List Glyph) :
    dropBlanks (g :: gs) = g :: gs ∧ g.isLineBreak = false ∧ atComment (g :: gs) = false := by
  refine ⟨dropBlanks_eq_self ?_, ?_, atComment_of_ne ?_ ?_ gs⟩
  · rintro _ ⟨⟩
    rcases hg with hg | hg | hg <;> simp [isBlank_char, Text.isBlank, hg]
  · rcases hg with hg | hg | hg <;> simp [isLineBreak_char, Text.isLineBreak, hg]
  · rcases hg with hg | hg | hg <;> simp [hg]
  · rcases hg with hg | hg | hg <;> simp [hg]

theorem readItems_separator (hg : g.char = ',') (gs : List Glyph) : readItems stop margin groups complete (g :: gs) =
      (.separator :: (readItems stop margin groups false gs).1, (readItems stop margin groups false gs).2) := by
  obtain ⟨hblanks, hbreak, hcomment⟩ := not_layout_of_sign (.inl hg) gs
  rw [readItems_of_cons hblanks, if_neg (by simp [hbreak]), if_neg (by simp [hcomment]), if_pos hg]

theorem readItems_open (hg : g.char = '(') (gs : List Glyph) : readItems stop margin groups false (g :: gs) =
      (.openGroup :: (readItems stop margin (g.position :: groups) false gs).1,
        (readItems stop margin (g.position :: groups) false gs).2) := by
  obtain ⟨hblanks, hbreak, hcomment⟩ := not_layout_of_sign (.inr (.inl hg)) gs
  rw [readItems_of_cons hblanks, if_neg (by simp [hbreak]), if_neg (by simp [hcomment]), if_neg (by simp [hg]),
    if_neg (by simp [hg]), if_pos (by simp [hg])]

theorem readItems_close (position : Position) (hg : g.char = ')') (gs : List Glyph) :
    readItems stop margin (position :: groups) complete (g :: gs) =
      (.closeGroup :: (readItems stop margin groups true gs).1, (readItems stop margin groups true gs).2) := by
  obtain ⟨hblanks, hbreak, hcomment⟩ := not_layout_of_sign (.inr (.inr hg)) gs
  rw [readItems_of_cons hblanks, if_neg (by simp [hbreak]), if_neg (by simp [hcomment]), if_neg (by simp [hg]),
    if_pos (by simp [hg])]
  rfl

end Line

namespace Entry

open Glyph Line

variable {written : List Glyph} {entry : Entry}

/-- Behind an entry there is a separator or what follows all entries. -/
theorem clear_inlineRest {entries : List Entry} {rest : List Glyph}
    (hwritten : chars written = inlineRest entries) (hrest : Clear rest) : Clear (written ++ rest) := by
  cases entries with
  | nil =>
    obtain rfl : written = [] := map_eq_nil_iff.mp (hwritten.trans (by rw [inlineRest]))
    exact hrest
  | cons entry entries =>
    rw [inlineRest] at hwritten
    obtain ⟨g, written, rfl, hg, -⟩ := map_eq_cons_iff.mp hwritten
    exact clear_cons (by simp [hg]) (written ++ rest)

mutual

theorem exists_itemized (stop : Position) (margin : Margin) (groups : List Position) {written rest : List Glyph}
    (hrest : Clear rest) : (entry : Entry) → chars written = entry.inline →
      ∃ items, entry.Itemized items ∧ readItems stop margin groups false (written ++ rest) =
          (items ++ (readItems stop margin groups true rest).1, (readItems stop margin groups true rest).2)
  | leaf name value, hwritten => by
    rw [inline] at hwritten
    obtain ⟨letters, written, rfl, hletters, hwritten⟩ := map_eq_append_iff.mp hwritten
    obtain ⟨item, hitem, hread⟩ := readItems_entry stop margin groups hletters hwritten hrest
    refine ⟨[.pair item], ?_, ?_⟩
    · rw [Itemized]
      exact ⟨item, hitem, rfl⟩
    · rw [append_assoc]
      exact hread
  | block name entries, hwritten => by
    rw [inline] at hwritten
    obtain ⟨letters, written, rfl, hletters, hwritten⟩ := map_eq_append_iff.mp hwritten
    obtain ⟨mark, written, rfl, hmark, hwritten⟩ := map_eq_cons_iff.mp hwritten
    obtain ⟨gap, written, rfl, hgap, hwritten⟩ := map_eq_cons_iff.mp hwritten
    obtain ⟨opening, written, rfl, hopening, hwritten⟩ := map_eq_cons_iff.mp hwritten
    obtain ⟨below, written, rfl, hbelow, hwritten⟩ := map_eq_append_iff.mp hwritten
    obtain ⟨closing, rfl, hclosing⟩ := map_eq_singleton_iff.mp hwritten
    have hmarked : chars [mark] = Phrase.written none := by simp [chars, Phrase.written, hmark]
    have hgroup : Clear (gap :: opening :: (below ++ closing :: rest)) := clear_cons (by simp [hgap]) _
    obtain ⟨item, hitem, hread⟩ := readItems_entry stop margin groups hletters hmarked hgroup
    have hbehind : Clear (closing :: rest) := clear_cons (by simp [hclosing]) rest
    obtain ⟨items, hitems, complete, hreadBelow⟩ :=
      exists_itemized_all stop margin (opening.position :: groups) hbehind entries hbelow
    refine ⟨.pair item :: .openGroup :: (items ++ [.closeGroup]), ?_, ?_⟩
    · rw [Itemized]
      exact ⟨item, items, hitem, hitems, rfl⟩
    · have hassoc : letters ++ mark :: gap :: opening :: (below ++ [closing]) ++ rest =
          letters ++ ([mark] ++ gap :: opening :: (below ++ closing :: rest)) := by simp
      rw [hassoc, hread]
      simp only [Option.isSome_none, readItems_space _ _ _ _ hgap, readItems_open _ _ _ hopening, hreadBelow,
        readItems_close _ _ _ _ _ hclosing]
      simp

theorem exists_itemized_all (stop : Position) (margin : Margin) (groups : List Position)
    {written rest : List Glyph} (hrest : Clear rest) : (entries : List Entry) →
      chars written = inlineAll entries → ∃ items, ItemizedAll entries items ∧ ∃ complete,
        readItems stop margin groups false (written ++ rest) =
          (items ++ (readItems stop margin groups complete rest).1, (readItems stop margin groups complete rest).2)
  | [], hwritten => by
    obtain rfl : written = [] := map_eq_nil_iff.mp (hwritten.trans (by rw [inlineAll]))
    exact ⟨[], by rw [ItemizedAll], false, rfl⟩
  | entry :: entries, hwritten => by
    rw [inlineAll] at hwritten
    obtain ⟨first, written, rfl, hfirst, hwritten⟩ := map_eq_append_iff.mp hwritten
    obtain ⟨items, hitems, hread⟩ := exists_itemized stop margin groups (clear_inlineRest hwritten hrest) entry hfirst
    obtain ⟨more, hmore, hreadRest⟩ := exists_itemized_rest stop margin groups hrest entries hwritten
    refine ⟨items ++ more, ?_, true, ?_⟩
    · rw [ItemizedAll]
      exact ⟨items, more, hitems, hmore, rfl⟩
    · rw [append_assoc, hread, hreadRest, append_assoc]

theorem exists_itemized_rest (stop : Position) (margin : Margin) (groups : List Position)
    {written rest : List Glyph} (hrest : Clear rest) : (entries : List Entry) →
      chars written = inlineRest entries → ∃ items, ItemizedRest entries items ∧
        readItems stop margin groups true (written ++ rest) =
          (items ++ (readItems stop margin groups true rest).1, (readItems stop margin groups true rest).2)
  | [], hwritten => by
    obtain rfl : written = [] := map_eq_nil_iff.mp (hwritten.trans (by rw [inlineRest]))
    exact ⟨[], by rw [ItemizedRest], rfl⟩
  | entry :: entries, hwritten => by
    rw [inlineRest] at hwritten
    obtain ⟨comma, written, rfl, hcomma, hwritten⟩ := map_eq_cons_iff.mp hwritten
    obtain ⟨gap, written, rfl, hgap, hwritten⟩ := map_eq_cons_iff.mp hwritten
    obtain ⟨first, written, rfl, hfirst, hwritten⟩ := map_eq_append_iff.mp hwritten
    obtain ⟨items, hitems, hread⟩ := exists_itemized stop margin groups (clear_inlineRest hwritten hrest) entry hfirst
    obtain ⟨more, hmore, hreadRest⟩ := exists_itemized_rest stop margin groups hrest entries hwritten
    refine ⟨.separator :: (items ++ more), ?_, ?_⟩
    · rw [ItemizedRest]
      exact ⟨items, more, hitems, hmore, rfl⟩
    · simp only [cons_append, append_assoc, readItems_separator _ _ _ _ hcomma,
        readItems_space _ _ _ _ hgap, hread, hreadRest]

end

theorem exists_letter_inline (hwritten : chars written = entry.inline) :
    ∃ g more, written = g :: more ∧ g.char.isAlphanum := by
  have hname : ∃ name : Word, ∃ tail, entry.inline = name.chars ++ tail := by
    cases entry <;> rw [inline] <;> exact ⟨_, _, rfl⟩
  obtain ⟨name, tail, hinline⟩ := hname
  obtain ⟨letters, others, rfl, hletters, -⟩ := map_eq_append_iff.mp (hwritten.trans hinline)
  obtain ⟨g, more, rfl, hg⟩ := exists_letter hletters
  exact ⟨g, more ++ others, rfl, hg⟩

theorem any_isPair_of_itemized {items : List Item} (h : entry.Itemized items) : items.any Item.isPair := by
  cases entry with
  | block name entries =>
    rw [Itemized] at h
    obtain ⟨item, below, -, -, rfl⟩ := h
    rfl
  | leaf name value =>
    rw [Itemized] at h
    obtain ⟨item, -, rfl⟩ := h
    rfl

mutual

theorem return_not_mem_inline : (entry : Entry) → '\r' ∉ entry.inline
  | block name entries => by
    have hbelow := return_not_mem_inlineAll entries
    simp [inline, name.return_not_mem, hbelow]
  | leaf name value => by
    simp [inline, name.return_not_mem, Phrase.return_not_mem_written]

theorem return_not_mem_inlineAll : (entries : List Entry) → '\r' ∉ inlineAll entries
  | [] => by simp [inlineAll]
  | entry :: entries => by
    simp [inlineAll, return_not_mem_inline entry, return_not_mem_inlineRest entries]

theorem return_not_mem_inlineRest : (entries : List Entry) → '\r' ∉ inlineRest entries
  | [] => by simp [inlineRest]
  | entry :: entries => by
    simp [inlineRest, return_not_mem_inline entry, return_not_mem_inlineRest entries]

end

end Entry

/-- The lines are those of the entries, one for each with all that is below it. -/
inductive Entry.Inlined : List Entry → List Line → Prop
  | nil : Inlined [] []
  | cons {entry : Entry} {outline : List Entry} {lines : List Line} (lead : Span) {items : List Item}
      (hitems : entry.Itemized items) (hlines : Inlined outline lines) :
      Inlined (entry :: outline) (.content 0 lead items :: lines)

/-- The lines are those of the rows, one for each. -/
inductive Row.Lined : List Row → List Line → Prop
  | nil : Lined [] []
  | cons {rows : List Row} {lines : List Line} (depth : Nat) {name : Word} {value : Option Phrase} (lead : Span)
      {item : PairItem} (hitem : item.Says name value) (hlines : Lined rows lines) :
      Lined (.entry depth name value :: rows) (.content depth lead [.pair item] :: lines)

namespace Entry

open Glyph Line

theorem inlined_readLines {unit : IndentUnit} (hunit : 0 < unit.width) (stop : Position) (outline : List Entry)
    {layout : Layout} (hfits : layout.Fits unit) {gs : List Glyph} (hgs : chars gs = inlinePage outline) :
    Inlined outline (readLines stop layout gs) := by
  induction outline generalizing layout gs with
  | nil =>
    obtain rfl : gs = [] := map_eq_nil_iff.mp hgs
    rw [readLines_nil]
    exact .nil
  | cons entry outline ih =>
    obtain ⟨tail, hpage, htail⟩ := exists_joinWith_cons entry.inline (outline.map inline)
    obtain ⟨first, rest, rfl, hfirst, hrest⟩ := map_eq_append_iff.mp (hgs.trans hpage)
    obtain ⟨hend, hnext⟩ := htail rest hrest
    have hbody : ∃ g more, first ++ rest = g :: more ∧ g.char.isAlphanum := by
      obtain ⟨g, more, rfl, hg⟩ := exists_letter_inline hfirst
      exact ⟨g, more ++ rest, rfl, hg⟩
    have hblanks : chars [] = unit.blanks 0 := by simp [chars, IndentUnit.blanks]
    obtain ⟨lead, items, next, hitems, -, hfits, hread⟩ :=
      readLine_of_items stop hunit hfits (Nat.zero_le _) hblanks hbody (P := entry.Itemized) (fun next _ _ => by
          obtain ⟨items, hitems, hread⟩ := exists_itemized stop ⟨next, _⟩ [] (clear_of_atLineEnd hend) entry hfirst
          refine ⟨items, hitems, any_isPair_of_itemized hitems, ?_⟩
          rw [hread, readItems_of_atLineEnd stop _ true hend, append_nil])
        hend
    rw [← nil_append (first ++ rest), readLines_of_readLine hread]
    exact .cons lead hitems (ih hfits hnext)

theorem inlined_ofText (outline : List Entry) : Inlined outline (ofText (inlinePage outline)) := by
  have hreturn : '\r' ∉ inlinePage outline := by
    refine not_mem_joinWith (by decide) fun text htext => ?_
    obtain ⟨entry, -, rfl⟩ := mem_map.mp htext
    exact return_not_mem_inline entry
  -- no row is indented, so any unit will do
  have hunit : 0 < (⟨false, 1⟩ : IndentUnit).width := Nat.one_pos
  exact inlined_readLines hunit _ outline (.inl ⟨rfl, Nat.zero_le _⟩) (chars_place hreturn _)

end Entry

namespace Row

variable {unit : Line.IndentUnit} {rows : List Row}

theorem lined_readLines (hunit : 0 < unit.width) (stop : Position)
    (hrows : ∀ row ∈ rows, row.isFiller = false) {layout : Line.Layout} (hfits : layout.Fits unit)
    (hsteps : Steps layout.openBlocks rows) {gs : List Glyph} (hgs : Glyph.chars gs = page unit rows) :
    Lined rows (Line.readLines stop layout gs) := by
  induction rows generalizing layout gs with
  | nil =>
    obtain rfl : gs = [] := map_eq_nil_iff.mp hgs
    rw [Line.readLines_nil]
    exact .nil
  | cons row rows ih =>
    cases row with
    | filler filler => cases hrows _ mem_cons_self
    | entry depth name value =>
      obtain ⟨hdepth, hsteps⟩ := hsteps
      obtain ⟨lead, item, next, rest, hitem, hfits, hrest, hread⟩ := readLines_entry hunit stop hfits hdepth hgs
      rw [hread]
      exact .cons depth lead hitem (ih (fun row hmem => hrows row (mem_cons_of_mem _ hmem)) hfits hsteps hrest)

theorem lined_ofText (hunit : 0 < unit.width) (hrows : ∀ row ∈ rows, row.isFiller = false) (hsteps : Steps 0 rows) :
    Lined rows (Line.ofText (page unit rows)) :=
  lined_readLines hunit _ hrows (.inl ⟨rfl, Nat.zero_le _⟩) hsteps
    (Glyph.chars_place (return_not_mem_page unit rows) _)

end Row

end PairMarkup
