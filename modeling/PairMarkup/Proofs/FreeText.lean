import PairMarkup.Proofs.Quoting

namespace PairMarkup

open List Line

/-- A line of a free text. It is not blank, and it ends in no white space and begins with no tab. -/
structure FreeRow where
  chars : List Char
  inLine : ∀ c ∈ chars, Text.isLineBreak c = false
  exists_last : ∃ c, chars.getLast? = some c ∧ Text.isWhitespace c = false
  spaces : ∀ c ∈ chars.takeWhile Text.isBlank, c = ' '

/-- The lines of a free text. The first of them begins right behind the equals signs, and the second one says where
    the others begin. -/
structure FreeText where
  first : FreeRow
  further : List FreeRow
  flush : ∀ row ∈ (first :: further).take 2, row.chars.head? ≠ some ' '

/-- A pair with a free text, whose further lines are indented by so many spaces. -/
structure FreeEntry where
  name : Word
  text : FreeText
  width : Nat
  width_pos : 0 < width

/-- A further line, with the line break before it. -/
def FreeRow.indented (width : Nat) (row : FreeRow) : List Char := '\n' :: (List.replicate width ' ' ++ row.chars)

def FreeText.content (text : FreeText) : List Char := Line.joinWith '\n' ((text.first :: text.further).map (·.chars))

def FreeEntry.written (entry : FreeEntry) : List Char := entry.name.chars ++ ' ' :: '=' :: '=' :: ' ' ::
    (entry.text.first.chars ++ entry.text.further.flatMap (·.indented entry.width))

theorem Text.isWhitespace_of_isBlank {c : Char} (h : Text.isBlank c) : Text.isWhitespace c := by
  simp only [Text.isBlank, Bool.or_eq_true, beq_iff_eq] at h
  rcases h with rfl | rfl <;> rfl

namespace FreeRow

variable (row : FreeRow)

theorem ne_nil : row.chars ≠ [] := by
  obtain ⟨c, hlast, -⟩ := row.exists_last
  intro hnil
  rw [hnil] at hlast
  cases hlast

theorem trimEnd_chars : Text.trimEnd row.chars = row.chars := by
  obtain ⟨c, hlast, hc⟩ := row.exists_last
  obtain ⟨before, hchars⟩ := getLast?_eq_some_iff.mp hlast
  rw [hchars, Text.trimEnd, reverse_append, reverse_singleton, singleton_append,
    dropWhile_cons_of_neg (by simp [hc]), reverse_cons, reverse_reverse]

theorem exists_not_blank : ∃ c ∈ row.chars, Text.isBlank c = false := by
  obtain ⟨c, hlast, hc⟩ := row.exists_last
  refine ⟨c, mem_of_getLast? hlast, ?_⟩
  rw [← Bool.not_eq_true]
  intro hblank
  rw [Text.isWhitespace_of_isBlank hblank] at hc
  cases hc

end FreeRow

namespace Line

open Glyph

variable {rest gs : List Glyph} {width : Nat} (stop : Position) {letters : List Glyph} {margin : Margin}
  {rows : List FreeRow}

section

variable {row : FreeRow} {letters : List Glyph} (hletters : chars letters = row.chars)

include hletters

theorem inLine_of_row : ∀ g ∈ letters, g.isLineBreak = false := by
  intro g hg
  rw [isLineBreak_char]
  exact row.inLine _ (hletters ▸ mem_map_of_mem hg)

theorem exists_not_blank_of_row : ∃ g ∈ letters, g.isBlank = false := by
  obtain ⟨c, hc, hblank⟩ := row.exists_not_blank
  rw [← hletters] at hc
  obtain ⟨g, hg, rfl⟩ := mem_map.mp hc
  exact ⟨g, hg, (isBlank_char g).trans hblank⟩

theorem atLineEnd_dropBlanks_of_row (rest : List Glyph) : atLineEnd (dropBlanks (letters ++ rest)) = false := by
  obtain ⟨g, hg, hblank⟩ := exists_not_blank_of_row hletters
  cases hdrop : dropBlanks letters with
  | nil =>
    have hall := dropWhile_eq_nil_iff.mp hdrop
    rw [hall g hg] at hblank
    cases hblank
  | cons first more =>
    have hmem : first ∈ letters := (dropBlanks_suffix letters).subset (hdrop ▸ mem_cons_self)
    have happend : dropBlanks (letters ++ rest) = first :: (more ++ rest) := by
      rw [dropBlanks, dropWhile_append, ← dropBlanks, hdrop]
      rfl
    rw [happend]
    exact inLine_of_row hletters first hmem

theorem takeWhile_isBlank_of_row (rest : List Glyph) :
    (letters ++ rest).takeWhile isBlank = letters.takeWhile isBlank := by
  obtain ⟨g, hg, hblank⟩ := exists_not_blank_of_row hletters
  rw [takeWhile_append, if_neg]
  intro hlength
  have hall := takeWhile_eq_self_iff.mp (takeWhile_sublist _ |>.eq_of_length hlength)
  rw [hall g hg] at hblank
  cases hblank

theorem char_of_takeWhile_isBlank : ∀ g ∈ letters.takeWhile isBlank, g.char = ' ' := by
  intro g hg
  refine row.spaces _ ?_
  rw [funext isBlank_char] at hg
  rw [← hletters, chars, takeWhile_map]
  exact mem_map_of_mem hg

theorem takeWhile_of_row (hend : atLineEnd rest) :
    (letters ++ rest).takeWhile (fun g => !g.isLineBreak) = letters := by
  have hinLine : ∀ g ∈ letters, (!g.isLineBreak) := fun g hg => by simp [inLine_of_row hletters g hg]
  rw [takeWhile_append_of_pos hinLine]
  cases rest with
  | nil => simp
  | cons g rest => simp [show g.isLineBreak = true from hend]

theorem dropLine_of_row (hend : atLineEnd rest) : dropLine (letters ++ rest) = rest := by
  have hinLine : ∀ g ∈ letters, (!g.isLineBreak) := fun g hg => by simp [inLine_of_row hletters g hg]
  rw [dropLine, dropWhile_append_of_pos hinLine]
  exact dropLine_of_atLineEnd hend

/-- Spaces before a row make its indentation wider, and do not mix with any tabs. -/
theorem indent_of_row {blanks : List Glyph} (hblanks : ∀ g ∈ blanks, g.char = ' ') (rest : List Glyph) :
    Indent.of (blanks ++ (letters ++ rest)) = ⟨blanks.length + (letters.takeWhile isBlank).length,
        (blanks ++ letters.takeWhile isBlank).any (·.char == ' '), false⟩ := by
  have hblank : ∀ g ∈ blanks, g.isBlank := fun g hg => by simp [isBlank_char, Text.isBlank, hblanks g hg]
  have htab : (blanks ++ letters.takeWhile isBlank).any (·.char == '\t') = false := by
    rw [any_eq_false]
    intro g hg
    rcases mem_append.mp hg with hg | hg
    · simp [hblanks g hg]
    · simp [char_of_takeWhile_isBlank hletters g hg]
  rw [Indent.of, takeWhile_append_of_pos hblank, takeWhile_isBlank_of_row hletters, htab, length_append]

theorem head?_of_flush (hflush : row.chars.head? ≠ some ' ') : ∀ g ∈ letters.head?, g.isBlank = false := by
  intro g hg
  obtain ⟨more, rfl⟩ := head?_eq_some_iff.mp hg
  rw [← Bool.not_eq_true]
  intro hblank
  have hspace := char_of_takeWhile_isBlank hletters g (by simp [hblank])
  rw [← hletters] at hflush
  exact hflush (congrArg some hspace)

end

theorem takeWhile_isBlank_of_flush (h : ∀ g ∈ letters.head?, g.isBlank = false) : letters.takeWhile isBlank = [] := by
  cases letters with
  | nil => rfl
  | cons g more => exact takeWhile_cons_of_neg (by simp [h g rfl])

theorem atLineEnd_append_of_rows (hgs : chars gs = rows.flatMap (·.indented width))
    (hend : atLineEnd rest) : atLineEnd (gs ++ rest) := by
  cases rows with
  | nil =>
    obtain rfl : gs = [] := map_eq_nil_iff.mp hgs
    exact hend
  | cons row rows =>
    obtain ⟨g, gs, rfl, hg, -⟩ := map_eq_cons_iff.mp hgs
    simp [atLineEnd, isLineBreak_char, Text.isLineBreak, hg]

/-- The further lines of a free text begin where the first of them does, and are read up to a line that is not
    indented. -/
theorem readFurtherLines_of_rows (hwidth : margin.width = 0)
    (hunit : margin.unit = none) (hpos : 0 < width) {strip : Option Nat}
    (hstrip : strip = some width ∨ strip = none ∧ ∀ row ∈ rows.head?, row.chars.head? ≠ some ' ')
    (hgs : chars gs = rows.flatMap (·.indented width)) (hend : atLineEnd rest)
    (hover : margin.continues rest.tail = false) :
    readFurtherLines stop margin strip (gs ++ rest) = ⟨rows.map (·.chars), [], rest⟩ := by
  induction rows generalizing gs strip with
  | nil =>
    obtain rfl : gs = [] := map_eq_nil_iff.mp hgs
    cases rest with
    | nil => rw [nil_append, readFurtherLines, map_nil]
    | cons g rest =>
      rw [nil_append, readFurtherLines, if_neg (by simpa using fun _ => hover), map_nil]
  | cons row rows ih =>
    rw [flatMap_cons, FreeRow.indented, cons_append, append_assoc] at hgs
    obtain ⟨g, gs, rfl, hg, hgs⟩ := map_eq_cons_iff.mp hgs
    obtain ⟨blanks, gs, rfl, hblanks, hgs⟩ := map_eq_append_iff.mp hgs
    obtain ⟨letters, gs, rfl, hletters, hgs⟩ := map_eq_append_iff.mp hgs
    have hbreak : g.isLineBreak := by simp [isLineBreak_char, Text.isLineBreak, hg]
    have hlength : blanks.length = width := by simpa using congrArg List.length hblanks
    have hspaces : ∀ b ∈ blanks, b.char = ' ' := by
      intro b hb
      exact (mem_replicate.mp (hblanks ▸ mem_map_of_mem hb)).2
    have hindent := indent_of_row hletters hspaces (gs ++ rest)
    have hmore := atLineEnd_append_of_rows hgs hend
    -- nothing but the blanks before the row is stripped: the first further row has none of its own
    have hcut : strip.getD (blanks.length + (letters.takeWhile isBlank).length) = width := by
      rcases hstrip with rfl | ⟨rfl, hflush⟩
      · rfl
      · rw [takeWhile_isBlank_of_flush (head?_of_flush hletters (hflush row rfl))]
        simpa using hlength
    have hcheck : margin.check stop (blanks ++ (letters ++ (gs ++ rest))) = [] := by
      simp [Margin.check, hindent, hunit]
    have hcontinues : margin.continues (blanks ++ (letters ++ (gs ++ rest))) := by
      have hblank : ∀ b ∈ blanks, b.isBlank := fun b hb => by simp [isBlank_char, Text.isBlank, hspaces b hb]
      have hdrop : dropBlanks (blanks ++ (letters ++ (gs ++ rest))) = dropBlanks (letters ++ (gs ++ rest)) :=
        dropWhile_append_of_pos hblank
      rw [Margin.continues, hdrop, atLineEnd_dropBlanks_of_row hletters, hindent, hwidth]
      simp only [Bool.not_false, Bool.true_and, decide_eq_true_eq]
      omega
    have hdrop : (blanks ++ (letters ++ (gs ++ rest))).drop (min width (blanks.length +
        (letters.takeWhile isBlank).length)) = letters ++ (gs ++ rest) := by
      rw [Nat.min_eq_left (by omega)]
      exact drop_left' hlength
    simp only [cons_append, append_assoc]
    rw [readFurtherLines, if_pos (by simp [hbreak, hcontinues])]
    simp only [hindent, hcut, hdrop, hcheck, takeWhile_of_row hletters hmore, dropLine_of_row hletters hmore,
      ih (.inl rfl) hgs]
    rw [show chars letters = row.chars from hletters]
    rfl

theorem readFreeString_of_text (hwidth : margin.width = 0)
    (hunit : margin.unit = none) (text : FreeText) (hpos : 0 < width) {gap : Glyph} (hgap : gap.char = ' ')
    (hletters : chars letters = text.first.chars)
    (hgs : chars gs = text.further.flatMap (·.indented width)) (hend : atLineEnd rest)
    (hover : margin.continues rest.tail = false) : readFreeString stop margin (gap :: (letters ++ (gs ++ rest))) =
      ⟨.text (String.ofList text.content) .openString, [], rest⟩ := by
  have hflush := head?_of_flush hletters (text.flush text.first mem_cons_self)
  have hblanks : dropBlanks (gap :: (letters ++ (gs ++ rest))) = letters ++ (gs ++ rest) := by
    have hblank : ∀ g ∈ [gap], g.isBlank := by simp [isBlank_char, Text.isBlank, hgap]
    refine dropBlanks_append hblank fun g hg => hflush g ?_
    cases letters with
    | nil => exact absurd hletters.symm text.first.ne_nil
    | cons first more => exact hg
  have hmore := atLineEnd_append_of_rows hgs hend
  have hhead : ∀ row ∈ text.further.head?, row.chars.head? ≠ some ' ' := by
    intro row hrow
    obtain ⟨rows, hrows⟩ := head?_eq_some_iff.mp hrow
    exact text.flush row (by simp [hrows])
  have hfurther := readFurtherLines_of_rows stop hwidth hunit hpos (.inr ⟨rfl, hhead⟩) hgs hend hover
  have hfirst : text.first.chars.isEmpty = false := by simpa using text.first.ne_nil
  have htrim : (text.further.map (·.chars)).map Text.trimEnd = text.further.map (·.chars) := by
    rw [map_map]
    exact map_congr_left fun row _ => row.trimEnd_chars
  have hcontent : text.content.isEmpty = false := by
    obtain ⟨tail, hjoin, -⟩ := exists_joinWith_cons text.first.chars (text.further.map (·.chars))
    rw [FreeText.content, map_cons, hjoin]
    simp [text.first.ne_nil]
  simp only [readFreeString, hblanks, takeWhile_of_row hletters hmore, dropLine_of_row hletters hmore, hfurther,
    hletters, text.first.trimEnd_chars, hfirst, htrim]
  change Read.mk (Value.text (String.ofList text.content) (if text.content.isEmpty then _ else _)) _ _ = _
  rw [hcontent]
  rfl

theorem readDelimiter_doubleEqual {mark mark' : Glyph} (hmark : mark.char = '=') (hmark' : mark'.char = '=')
    (rest : List Glyph) : readDelimiter (mark :: mark' :: rest) = (.doubleEqual, rest) :=
  readDelimiter_eq _ (by simp [delimiterOf, chars, hmark, hmark'])

end Line

/-- The item is that of the entry. -/
def PairItem.Holds (item : PairItem) (entry : FreeEntry) : Prop :=
  item.Bears entry.name .doubleEqual (some (String.ofList entry.text.content, .openString))

namespace Line

open Glyph

variable (stop : Position) {rest gs : List Glyph}

theorem exists_readItems_of_entry {margin : Margin} (hwidth : margin.width = 0)
    (hunit : margin.unit = none) (entry : FreeEntry) (hgs : chars gs = entry.written)
    (hend : atLineEnd rest) (hover : margin.continues rest.tail = false) :
    ∃ item : PairItem, item.Holds entry ∧ readItems stop margin [] false (gs ++ rest) = ([.pair item], rest) := by
  obtain ⟨letters, gs, rfl, hletters, hgs⟩ := map_eq_append_iff.mp hgs
  obtain ⟨space, gs, rfl, hspace, hgs⟩ := map_eq_cons_iff.mp hgs
  obtain ⟨mark, gs, rfl, hmark, hgs⟩ := map_eq_cons_iff.mp hgs
  obtain ⟨mark', gs, rfl, hmark', hgs⟩ := map_eq_cons_iff.mp hgs
  obtain ⟨gap, gs, rfl, hgap, hgs⟩ := map_eq_cons_iff.mp hgs
  obtain ⟨first, further, rfl, hfirst, hfurther⟩ := map_eq_append_iff.mp hgs
  let text := gap :: (first ++ (further ++ rest))
  have hvalue : readFreeString stop margin text = ⟨.text (String.ofList entry.text.content) .openString, [], rest⟩ :=
    readFreeString_of_text stop hwidth hunit entry.text entry.width_pos hgap hfirst hfurther hend hover
  obtain ⟨span, span', hhead⟩ := readHead_of_word stop hletters [space] (by simpa using hspace) (.inl hmark)
    (readDelimiter_doubleEqual hmark hmark' text)
  let head : Head := ⟨.none, some ⟨String.ofList entry.name.chars, none, span⟩, .doubleEqual, span'⟩
  have hfound : readAnnounced stop margin false text head.delimiter = some _ := congrArg some hvalue
  have hbody := readBody_of_found head hfound
  refine ⟨_, ⟨rfl, ⟨span, rfl⟩, rfl, hbody.1, hbody.2.1⟩, ?_⟩
  have hpair : readBody stop margin false head text = (_, rest) := Prod.ext rfl hbody.2.2
  have hread := readItems_of_word stop margin [] hletters hhead rfl hpair
  rw [readItems_of_atLineEnd stop margin _ hend] at hread
  simpa [text] using hread

theorem exists_letter_of_entry {entry : FreeEntry} (hgs : chars gs = entry.written) :
    ∃ g more, gs = g :: more ∧ g.char.isAlphanum := by
  obtain ⟨letters, behind, rfl, hletters, -⟩ := map_eq_append_iff.mp hgs
  obtain ⟨g, more, rfl, hg⟩ := exists_letter hletters
  exact ⟨g, more ++ behind, rfl, hg⟩

/-- An entry that is not indented is a line of its own. Reading goes on behind the line break after it. -/
theorem exists_readLine_of_entry {layout : Layout} (hunit : layout.unit = none)
    (hopen : layout.openBlocks ≤ 1) (entry : FreeEntry) (hgs : chars gs = entry.written)
    (hend : atLineEnd rest) (hover : ∀ g ∈ rest.tail.head?, g.isBlank = false) :
    ∃ lead, ∃ item : PairItem, item.Holds entry ∧
      readLine stop layout (gs ++ rest) = ⟨[.content 0 lead [.pair item]], ⟨none, 1⟩, dropLineBreak rest⟩ := by
  let margin : Margin := ⟨none, 0⟩
  have hcontinues : margin.continues rest.tail = false := by
    rw [Margin.continues, Indent.of, takeWhile_isBlank_of_flush hover]
    simp
  have hwidth : margin.width = 0 := rfl
  obtain ⟨item, hitem, hread⟩ := exists_readItems_of_entry stop hwidth rfl entry hgs hend hcontinues
  have hbody : ∃ g more, gs ++ rest = g :: more ∧ g.char.isAlphanum := by
    obtain ⟨g, more, rfl, hg⟩ := exists_letter_of_entry hgs
    exact ⟨g, more ++ rest, rfl, hg⟩
  have hnext : ∀ next span, layout.measure (IndentUnit.indent ⟨false, 1⟩ 0) span = .ok (0, next) → next = none := by
    intro next span hmeasure
    simpa [Layout.measure, IndentUnit.indent, hunit, eq_comm] using hmeasure
  have hfits : layout.Fits ⟨false, 1⟩ := .inl ⟨hunit, hopen⟩
  have hblanks : chars [] = IndentUnit.blanks ⟨false, 1⟩ 0 := rfl
  obtain ⟨lead, _, next, rfl, hmeasure, -, hline⟩ :=
    readLine_of_items stop Nat.one_pos hfits (Nat.zero_le _) hblanks hbody (P := (· = [.pair item]))
      (fun next span hmeasure => by
        obtain rfl := hnext next span hmeasure
        exact ⟨_, rfl, rfl, hread⟩) hend
  obtain rfl := hnext next lead hmeasure
  exact ⟨lead, item, hitem, hline⟩

end Line

variable (entry : FreeEntry)

theorem FreeEntry.return_not_mem_written : '\r' ∉ entry.written := by
  have hrow : ∀ row : FreeRow, '\r' ∉ row.chars := by
    intro row hmem
    have := row.inLine _ hmem
    revert this
    decide
  simp [written, FreeRow.indented, entry.name.return_not_mem, hrow]

open Glyph in
/-- The lines of a text that begins with an entry: its own, and then those that are read behind it. -/
theorem FreeEntry.exists_ofText {tail : List Char} (hend : atLineEnd (place (placeAfter .start entry.written) tail))
    (hover : ∀ g ∈ (place (placeAfter .start entry.written) tail).tail.head?, g.isBlank = false) :
    ∃ lead, ∃ item : PairItem, item.Holds entry ∧ ofText (entry.written ++ tail) = .content 0 lead [.pair item] ::
        readLines (placeAfter .start (entry.written ++ tail)) ⟨none, 1⟩
          (dropLineBreak (place (placeAfter .start entry.written) tail)) := by
  have hunit : Line.Layout.initial.unit = none := rfl
  have hchars := chars_place entry.return_not_mem_written .start
  obtain ⟨lead, item, hitem, hline⟩ := exists_readLine_of_entry
    (placeAfter .start (entry.written ++ tail)) hunit (Nat.zero_le _) entry hchars hend hover
  refine ⟨lead, item, hitem, ?_⟩
  rw [ofText_eq, place_append (.inl entry.return_not_mem_written)]
  exact readLines_of_readLine hline

namespace Session

/-- A free text is read back as the value of the only pair, without a diagnostic. Whatever stands behind it is read
    from its beginning, if that is not indented. -/
theorem parse_freeEntry (s : Session) (file : String) (format : Format) (entry : FreeEntry) :
    (∀ tail, tail = [] ∨ tail = ['\n'] → ∃ set doc x, (s.set.parse file format (entry.written ++ tail)).log = [] ∧
      s.parse ⟨file, format, entry.written ++ tail⟩ = .ok ⟨set, s.collection⟩ ∧
      set.modules = s.set.modules ++ [s.set.tree.size] ∧
      set.tree.contentChildren s.set.tree.size = [doc] ∧
      Builder.isImplicitDocument (set.tree.kind doc) = true ∧
      set.tree.contentChildren doc = [x] ∧ set.tree.contentChildren x = [] ∧
      (set.tree.get x).Bears entry.name .doubleEqual (String.ofList entry.text.content) .openString) ∧
    ∀ next : List Char, (∀ c ∈ next.head?, Text.isBlank c = false) → ∃ lead, ∃ item : PairItem,
      item.Holds entry ∧ Line.ofText (entry.written ++ '\n' :: next) = .content 0 lead [.pair item] ::
        Line.readLines (Glyph.placeAfter .start (entry.written ++ '\n' :: next)) ⟨none, 1⟩
          (Glyph.place (Glyph.placeAfter .start (entry.written ++ ['\n'])) next) := by
  constructor
  · intro tail htail
    have hend : Glyph.atLineEnd (Glyph.place (Glyph.placeAfter .start entry.written) tail) = true := by
      rcases htail with rfl | rfl <;> rfl
    obtain ⟨lead, item, hitem, hread⟩ := entry.exists_ofText hend (by
      intro g hg
      rcases htail with rfl | rfl <;> cases hg)
    have hnil : Glyph.dropLineBreak (Glyph.place (Glyph.placeAfter .start entry.written) tail) = [] := by
      rcases htail with rfl | rfl <;> rfl
    rw [hnil, Line.readLines_nil] at hread
    obtain ⟨tree, doc, x, hparse, hroot, himplicit, hdoc, hleaf, hpair⟩ :=
      s.set.exists_parse_of_pair file format hread hitem (.inr (.inl rfl))
    refine ⟨⟨tree, s.set.modules ++ [s.set.tree.size]⟩, doc, x, ?_, ?_, rfl, hroot, himplicit, hdoc, hleaf, hpair⟩
    · rw [hparse]
    · simp only [parse_eq_accept, hparse, accept, Collection.receiveAll]
  · intro next hnext
    let p := Glyph.placeAfter .start entry.written
    have hplace : Glyph.place p ('\n' :: next) = .plain '\n' p :: Glyph.place (p.after '\n') next :=
      Glyph.place_cons_of_ne (by decide) p next
    have hover : ∀ g ∈ (Glyph.place p ('\n' :: next)).tail.head?, g.isBlank = false := by
      rw [hplace, List.tail_cons]
      cases next with
      | nil =>
        intro g hg
        cases hg
      | cons c next =>
        obtain ⟨g, rest, hcons, hg⟩ := Glyph.exists_place_cons (p.after '\n') c next
        rw [hcons]
        rintro _ ⟨⟩
        rcases hg with hg | hg
        · rw [Glyph.isBlank_char, hg]
          exact hnext c rfl
        · rw [Glyph.isBlank_char, hg]
          rfl
    obtain ⟨lead, item, hitem, hread⟩ := entry.exists_ofText (congrArg Glyph.atLineEnd hplace) hover
    refine ⟨lead, item, hitem, hread.trans ?_⟩
    rw [hplace]
    change _ :: Line.readLines _ _ (Glyph.place (p.after '\n') next) = _
    simp [p, Glyph.placeAfter]

theorem sampleRow_inLine : ∀ c ∈ "''' !\"$a: (b, %c =".toList, Text.isLineBreak c = false :=
  fun c hc => Bool.eq_false_iff.mpr (any_eq_false.mp rfl c hc)

theorem sampleRow_spaces : ∀ c ∈ "''' !\"$a: (b, %c =".toList.takeWhile Text.isBlank, c = ' ' :=
  forall_mem_nil _

def sampleRow : FreeRow := ⟨_, sampleRow_inLine, ⟨'=', rfl, rfl⟩, sampleRow_spaces⟩

theorem deeperRow_inLine : ∀ c ∈ "  a\t#b".toList, Text.isLineBreak c = false :=
  fun c hc => Bool.eq_false_iff.mpr (any_eq_false.mp rfl c hc)

theorem deeperRow_spaces : ∀ c ∈ "  a\t#b".toList.takeWhile Text.isBlank, c = ' ' :=
  forall_mem_cons.mpr ⟨rfl, forall_mem_singleton.mpr rfl⟩

def deeperRow : FreeRow := ⟨_, deeperRow_inLine, ⟨'b', rfl, rfl⟩, deeperRow_spaces⟩

theorem sampleText_flush : ∀ row ∈ [sampleRow, sampleRow], row.chars.head? ≠ some ' ' :=
  forall_mem_cons.mpr ⟨by decide, forall_mem_singleton.mpr (by decide)⟩

def sampleEntry : FreeEntry := ⟨sampleName, ⟨sampleRow, [sampleRow, deeperRow], sampleText_flush⟩, 3, Nat.succ_pos 2⟩

theorem sampleEntry_read_back :
    sampleEntry.written = "t == ''' !\"$a: (b, %c =\n   ''' !\"$a: (b, %c =\n     a\t#b".toList ∧
    sampleEntry.text.content = "''' !\"$a: (b, %c =\n''' !\"$a: (b, %c =\n  a\t#b".toList ∧
    (∃ set doc x, (start none).parse ⟨"t", .json, sampleEntry.written ++ ['\n']⟩ = .ok ⟨set, .empty none⟩ ∧
      set.tree.contentChildren doc = [x] ∧
      (set.tree.get x).Bears sampleName .doubleEqual (String.ofList sampleEntry.text.content) .openString) ∧
    (∀ c ∈ ['b'].head?, Text.isBlank c = false) ∧
    ∃ line : Line, Line.ofText (sampleEntry.written ++ ['\n', 'b']) = line ::
      Line.readLines ⟨4, 2, 57⟩ ⟨none, 1⟩ (Glyph.place ⟨4, 1, 56⟩ ['b']) := by
  obtain ⟨hread, hbehind⟩ := parse_freeEntry (start none) "t" .json sampleEntry
  obtain ⟨set, doc, x, -, hparse, -, -, -, hdoc, -, hbears⟩ := hread ['\n'] (.inr rfl)
  have hhead : ∀ c ∈ ['b'].head?, Text.isBlank c = false := by
    rintro c ⟨⟩
    rfl
  obtain ⟨lead, item, -, hline⟩ := hbehind ['b'] hhead
  have hstop : Glyph.placeAfter .start (sampleEntry.written ++ ['\n', 'b']) = ⟨4, 2, 57⟩ := by decide +kernel
  have hnext : Glyph.placeAfter .start (sampleEntry.written ++ ['\n']) = ⟨4, 1, 56⟩ := by decide +kernel
  rw [hstop, hnext] at hline
  exact ⟨by decide +kernel, by decide +kernel, ⟨set, doc, x, hparse, hdoc, hbears⟩, hhead, _, hline⟩

end Session

end PairMarkup
