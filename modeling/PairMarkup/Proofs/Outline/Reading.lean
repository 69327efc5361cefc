import PairMarkup.Proofs.Outline.Basic
import PairMarkup.Proofs.Reading

namespace PairMarkup

open List Glyph Line

theorem ne_of_isAlphanum {c d : Char} (hc : c.isAlphanum) (hd : d.isAlphanum = false) : c ≠ d := by
  rintro rfl
  rw [hc] at hd
  cases hd

theorem not_isWhitespace_of_isAlphanum {c : Char} (hc : c.isAlphanum) : Text.isWhitespace c = false := by
  delta Char.isAlphanum Char.isAlpha Char.isUpper Char.isLower Char.isDigit at hc
  simp only [Bool.or_eq_true, Bool.and_eq_true, decide_eq_true_eq, ge_iff_le, UInt32.le_iff_toNat_le] at hc
  change ((65 ≤ c.toNat ∧ c.toNat ≤ 90) ∨ (97 ≤ c.toNat ∧ c.toNat ≤ 122)) ∨ (48 ≤ c.toNat ∧ c.toNat ≤ 57) at hc
  simp only [Text.isWhitespace, Bool.or_eq_false_iff, Bool.and_eq_false_iff, decide_eq_false_iff_not,
    beq_eq_false_iff_ne]
  omega

namespace Text

theorem trimEnd_append {text space : List Char} (htext : ∀ c ∈ text, isWhitespace c = false)
    (hspace : ∀ c ∈ space, isWhitespace c) : trimEnd (text ++ space) = text := by
  have hdrop : (text.reverse).dropWhile isWhitespace = text.reverse := by
    cases hreverse : text.reverse with
    | nil => rfl
    | cons c rest =>
      have hc : c ∈ text := mem_reverse.mp (hreverse ▸ mem_cons_self)
      rw [dropWhile_cons_of_neg (by simp [htext c hc])]
  rw [trimEnd, reverse_append, dropWhile_append_of_pos (by simpa using hspace), hdrop, reverse_reverse]

end Text

namespace Glyph

variable {gs rest : List Glyph} {g : Glyph}

theorem chars_place {text : List Char} (h : '\r' ∉ text) (p : Position) : chars (place p text) = text := by
  induction text generalizing p with
  | nil => rfl
  | cons c text ih =>
    rw [place_cons_of_ne (ne_of_not_mem_cons h).symm, chars, map_cons]
    exact congrArg (c :: ·) (ih (not_mem_of_not_mem_cons h) _)

theorem dropBlanks_eq_self (h : ∀ g ∈ gs.head?, g.isBlank = false) : dropBlanks gs = gs := by
  cases gs with
  | nil => rfl
  | cons g gs => exact dropWhile_cons_of_neg (by simp [h g rfl])

theorem dropBlanks_append {blanks : List Glyph} (hblanks : ∀ g ∈ blanks, g.isBlank)
    (hrest : ∀ g ∈ rest.head?, g.isBlank = false) : dropBlanks (blanks ++ rest) = rest := by
  rw [dropBlanks, dropWhile_append_of_pos hblanks]
  exact dropBlanks_eq_self hrest

theorem atComment_of_ne (hsingle : g.char ≠ '\'') (hdouble : g.char ≠ '"') (gs : List Glyph) :
    atComment (g :: gs) = false := by
  match gs with
  | [] | [_] => simp [atComment_eq, chars, isCommentMark]
  | _ :: _ :: _ => simp [atComment_eq, chars, isCommentMark, hsingle, hdouble]

theorem breakAt_of_forall {stops : List Glyph → Bool} {taken : List Glyph}
    (htaken : ∀ g ∈ taken, ∀ more, stops (g :: more) = false) (hrest : rest = [] ∨ stops rest) :
    breakAt stops (taken ++ rest) = (taken, rest) := by
  induction taken with
  | nil =>
    cases rest with
    | nil => rfl
    | cons g rest => simp [breakAt, hrest.resolve_left (cons_ne_nil g rest)]
  | cons g taken ih =>
    have hstop := htaken g mem_cons_self (taken ++ rest)
    have hmore := ih fun g hg => htaken g (mem_cons_of_mem _ hg)
    simp [breakAt, hstop, hmore]

theorem char_eq_of_isLineBreak (h : g.isLineBreak) : g.char = '\n' ∨ g.char = '\r' := by
  simpa [isLineBreak_char, Text.isLineBreak] using h

theorem dropBlanks_of_atLineEnd (hend : atLineEnd gs) : dropBlanks gs = gs := by
  refine dropBlanks_eq_self fun g hg => ?_
  obtain ⟨rest, rfl⟩ := head?_eq_some_iff.mp hg
  rcases char_eq_of_isLineBreak hend with h | h <;> simp [isBlank_char, Text.isBlank, h]

theorem atComment_of_atLineEnd (hend : atLineEnd gs) : atComment gs = false := by
  cases gs with
  | nil => exact atComment_nil
  | cons g gs => rcases char_eq_of_isLineBreak hend with h | h <;> exact atComment_of_ne (by simp [h]) (by simp [h]) gs

/-- Nothing follows that would belong to the mark or the quote before it. -/
def Clear (rest : List Glyph) : Prop := ∀ g ∈ rest.head?, g.char ≠ ':' ∧ g.char ≠ '=' ∧ g.char ≠ '"'

theorem clear_cons (hg : g.char ≠ ':' ∧ g.char ≠ '=' ∧ g.char ≠ '"') (rest : List Glyph) : Clear (g :: rest) := by
  rintro _ ⟨⟩
  exact hg

theorem clear_of_atLineEnd (hend : atLineEnd rest) : Clear rest := by
  cases rest with
  | nil => exact nofun
  | cons g rest => exact clear_cons (by rcases char_eq_of_isLineBreak hend with h | h <;> simp [h]) rest

end Glyph

namespace Line

open Glyph

variable (stop : Position) (margin : Margin) {letters rest gs : List Glyph} {opening mark closing gap : Glyph}
  {name : Word}

theorem readComments_of_atLineEnd (hend : atLineEnd gs) : readComments stop gs = ([], gs) := by
  rw [readComments, dif_neg (by simp [atComment_of_atLineEnd hend])]

/-- A comment with single quotes goes up to the end of its line and is closed. -/
theorem readComments_of_single {a b c : Glyph} (ha : a.char = '\'') (hb : b.char = '\'') (hc : c.char = '\'')
    {body : List Glyph} (hbody : ∀ g ∈ body, g.isLineBreak = false) (hend : atLineEnd rest) :
    ∃ comment : Comment, comment.isClosed ∧
      readComments stop (a :: b :: c :: (body ++ rest)) = ([comment], rest) := by
  have hcomment : atComment (a :: b :: c :: (body ++ rest)) := by simp [atComment_eq, chars, isCommentMark, ha, hb, hc]
  have hbreak : breakAt atLineEnd (body ++ rest) = (body, rest) :=
    breakAt_of_forall (fun g hg _ => hbody g hg) (.inr hend)
  obtain ⟨comment, hclosed, hread⟩ : ∃ comment : Comment, comment.isClosed = true ∧
      readComment stop (a :: b :: c :: (body ++ rest)) = (comment, rest) := by
    simp [readComment, ha, hbreak]
  refine ⟨comment, hclosed, ?_⟩
  rw [readComments, dif_pos hcomment]
  simp only [hread]
  rw [dropBlanks_of_atLineEnd hend, readComments_of_atLineEnd stop hend]

theorem readItems_of_atLineEnd (complete : Bool) (hend : atLineEnd gs) :
    readItems stop margin [] complete gs = ([], gs) := by
  have hblanks := dropBlanks_of_atLineEnd hend
  cases gs with
  | nil => exact readItems_of_nil hblanks stop margin [] complete
  | cons g rest =>
    have hbreak : g.isLineBreak := hend
    rw [readItems_of_cons hblanks, if_pos hbreak]
    rfl

theorem readSigil_of_isAlphanum {g : Glyph} (hg : g.char.isAlphanum) (gs : List Glyph) :
    readSigil (g :: gs) = (.none, g :: gs) := by
  have hne : ∀ d : Char, d.isAlphanum = false → g.char ≠ d := fun d => ne_of_isAlphanum hg
  refine readSigil_eq (g :: gs) ?_
  change sigilOf (g.char :: chars (gs.take 1)) = .none
  unfold sigilOf
  split
  all_goals first
    | rfl
    | exact absurd (Option.some.inj ‹(g.char :: chars (gs.take 1))[0]? = _›) (hne _ (by decide))

theorem exists_letter (hletters : chars letters = name.chars) :
    ∃ g more, letters = g :: more ∧ g.char.isAlphanum := by
  cases letters with
  | nil => exact absurd hletters.symm name.ne_nil
  | cons g more =>
    refine ⟨g, more, rfl, name.isAlphanum _ ?_⟩
    rw [← hletters]
    exact mem_cons_self

theorem readName_of_word {gap : List Glyph} (hletters : chars letters = name.chars)
    (hgap : ∀ g ∈ gap, g.char = ' ') (hmark : mark.char = '=' ∨ mark.char = ':') (rest : List Glyph) :
    ∃ span, readName stop (letters ++ (gap ++ mark :: rest)) =
      ⟨some ⟨String.ofList name.chars, none, span⟩, [], mark :: rest⟩ := by
  have halpha : ∀ g ∈ letters, g.char.isAlphanum := by
    intro g hg
    exact name.isAlphanum _ (hletters ▸ mem_map_of_mem hg)
  have hbreak : breakAt endsName (letters ++ (gap ++ mark :: rest)) = (letters ++ gap, mark :: rest) := by
    rw [← append_assoc]
    refine breakAt_of_forall (fun g hg more => ?_) (.inr ?_)
    · rcases mem_append.mp hg with hg | hg
      · have hne : ∀ d : Char, d.isAlphanum = false → g.char ≠ d := fun d => ne_of_isAlphanum (halpha g hg)
        simp [endsName, isLineBreak_char, Text.isLineBreak, hne '\n', hne '\r', hne '=', hne ':', hne ',',
          hne '\'', hne '"', hne ')', hne '(']
      · simp [endsName, isLineBreak_char, Text.isLineBreak, hgap g hg]
    · rcases hmark with hmark | hmark <;> simp [endsName, hmark]
  have htrim : Text.trimEnd (chars (letters ++ gap)) = name.chars := by
    rw [chars, map_append, ← hletters]
    refine Text.trimEnd_append (fun c hc => ?_) fun c hc => ?_
    · exact not_isWhitespace_of_isAlphanum (name.isAlphanum c (hletters ▸ hc))
    · obtain ⟨g, hg, rfl⟩ := mem_map.mp hc
      simp [hgap g hg, Text.isWhitespace]
  obtain ⟨g, letters, rfl, hg⟩ := exists_letter hletters
  have hne : ∀ d : Char, d.isAlphanum = false → g.char ≠ d := fun d => ne_of_isAlphanum hg
  have hcomment := atComment_of_ne (hne '\'' (by decide)) (hne '"' (by decide)) (letters ++ (gap ++ mark :: rest))
  have hquote : ¬ (g.char = '\'' || g.char = '"') := by simp [hne '\'', hne '"']
  rw [cons_append] at hbreak ⊢
  rw [readName, if_neg (by simp [hcomment]), if_neg hquote, readBareName, hbreak]
  simp only [htrim]
  rw [if_neg (by simpa using name.ne_nil)]
  exact ⟨_, rfl⟩

theorem readDelimiter_colon (hmark : mark.char = ':') (hrest : Clear rest) :
    readDelimiter (mark :: rest) = (.colon, rest) := by
  refine readDelimiter_eq (mark :: rest) ?_
  cases rest with
  | nil => simp [delimiterOf, chars, hmark]
  | cons g rest =>
    obtain ⟨hcolon, hequal, -⟩ := hrest g rfl
    simp [delimiterOf, chars, hmark, hcolon, hequal]

theorem readDelimiter_equal (hmark : mark.char = '=') (hgap : gap.char = ' ') (rest : List Glyph) :
    readDelimiter (mark :: gap :: rest) = (.equal, gap :: rest) :=
  readDelimiter_eq _ (by simp [delimiterOf, chars, hmark, hgap])

theorem ne_of_isPlain {c d : Char} (hc : Text.isAlphanumeric c ∨ c = ' ')
    (hd : Text.isAlphanumeric d = false) (hspace : d ≠ ' ') : c ≠ d := by
  rintro rfl
  rcases hc with hc | hc
  · rw [hc] at hd
    cases hd
  · exact hspace hc

theorem readPieces_of_plain (start : Position)
    (hletters : ∀ g ∈ letters, Text.isAlphanumeric g.char ∨ g.char = ' ') (hclosing : closing.char = '"')
    (rest : List Glyph) :
    readPieces stop margin start '"' (letters ++ closing :: rest) =
      ⟨letters.map fun g => .char g.char, [], rest⟩ := by
  induction letters with
  | nil =>
    rw [nil_append, readPieces, if_pos hclosing]
    rfl
  | cons g letters ih =>
    have hne : ∀ d : Char, Text.isAlphanumeric d = false → d ≠ ' ' → g.char ≠ d := fun d =>
      ne_of_isPlain (hletters g mem_cons_self)
    have hbreak : g.isLineBreak = false := by
      simp [isLineBreak_char, Text.isLineBreak, hne '\n' (by decide) (by decide), hne '\r' (by decide) (by decide)]
    have hescape : ¬ (g.char = '\\' && ('"' : Char) = '"') := by
      simp [hne '\\' (by decide) (by decide)]
    have hreference : ∀ more, referenceInText (g :: more) = false := fun more =>
      referenceInText_of_ne more (hne '$' (by decide) (by decide)) (hne '%' (by decide) (by decide))
    rw [cons_append, readPieces, if_neg (hne '"' (by decide) (by decide)), if_neg (by simp [hbreak]),
      if_neg hescape, if_neg (by simp [hreference]), ih fun g hg => hletters g (mem_cons_of_mem _ hg)]
    rfl

theorem readQuoted_of_chars (hopening : opening.char = '"') {content : List Char} {notes : List Note}
    (hpieces : readPieces stop margin opening.position '"' gs = ⟨content.map .char, notes, rest⟩) :
    readQuoted stop margin opening gs = ⟨.text (String.ofList content) .doubleQuoted, notes, rest⟩ := by
  have hreference : (content.map Piece.char).any Piece.isReference = false := by
    simp [Piece.isReference]
  have hchars : (content.map Piece.char).filterMap Piece.char? = content := by
    rw [filterMap_map]
    exact filterMap_some
  simp only [readQuoted, hopening, hpieces, hreference, hchars]
  rfl

theorem readQuoted_of_plain (hopening : opening.char = '"') (hclosing : closing.char = '"')
    (hletters : ∀ g ∈ letters, Text.isAlphanumeric g.char ∨ g.char = ' ') (rest : List Glyph) :
    readQuoted stop margin opening (letters ++ closing :: rest) =
      ⟨.text (String.ofList (chars letters)) .doubleQuoted, [], rest⟩ := by
  refine readQuoted_of_chars stop margin hopening ?_
  rw [readPieces_of_plain stop margin _ hletters hclosing, chars, map_map]
  rfl

/-- Two quotes without a third begin no comment, and neither does a quote before a letter. -/
theorem atComment_of_phrase (hletters : ∀ g ∈ letters, Text.isAlphanumeric g.char ∨ g.char = ' ')
    (hopening : opening.char = '"') (closing : Glyph) (hrest : Clear rest) :
    atComment (opening :: (letters ++ closing :: rest)) = false := by
  cases letters with
  | nil =>
    cases rest with
    | nil => simp [atComment_eq, chars, isCommentMark]
    | cons g rest => simp [atComment_eq, chars, isCommentMark, hopening, (hrest g rfl).2.2]
  | cons g letters =>
    have hne : g.char ≠ '"' := ne_of_isPlain (hletters g mem_cons_self) (by decide) (by decide)
    cases letters with
    | nil => simp [atComment_eq, chars, isCommentMark, hopening, hne]
    | cons next letters => simp [atComment_eq, chars, isCommentMark, hopening, hne]

theorem readValue_of_quote (inGroup : Bool) (hgap : gap.char = ' ') (hopening : opening.char = '"')
    (hcomment : atComment (opening :: rest) = false) :
    readValue stop margin inGroup (gap :: opening :: rest) = readQuoted stop margin opening rest := by
  have hblanks : dropBlanks (gap :: opening :: rest) = opening :: rest := by
    simp [dropBlanks, isBlank_char, Text.isBlank, hgap, hopening]
  have hbreak : ¬ opening.isLineBreak := by simp [isLineBreak_char, Text.isLineBreak, hopening]
  rw [readValue, hblanks]
  dsimp only
  rw [if_neg hbreak, if_neg (by simp [hcomment]), if_pos (by simp [hopening])]

theorem readValue_of_phrase (inGroup : Bool) (value : Phrase) (hgap : gap.char = ' ')
    (hopening : opening.char = '"') (hclosing : closing.char = '"') (hletters : chars letters = value.chars)
    (hrest : Clear rest) :
    readValue stop margin inGroup (gap :: opening :: (letters ++ closing :: rest)) =
      ⟨.text (String.ofList value.chars) .doubleQuoted, [], rest⟩ := by
  have hplain : ∀ g ∈ letters, Text.isAlphanumeric g.char ∨ g.char = ' ' := by
    intro g hg
    exact value.isPlain _ (hletters ▸ mem_map_of_mem hg)
  have hcomment := atComment_of_phrase hplain hopening closing hrest
  rw [readValue_of_quote stop margin inGroup hgap hopening hcomment,
    readQuoted_of_plain stop margin hopening hclosing hplain, hletters]

theorem readHead_of_word {after : List Glyph} {delimiter : Delimiter} (hletters : chars letters = name.chars)
    (gap : List Glyph) (hgap : ∀ g ∈ gap, g.char = ' ') (hmark : mark.char = '=' ∨ mark.char = ':')
    (hdelimiter : readDelimiter (mark :: rest) = (delimiter, after)) :
    ∃ span span', readHead stop (letters ++ (gap ++ mark :: rest)) =
      ⟨⟨.none, some ⟨String.ofList name.chars, none, span⟩, delimiter, span'⟩, [], after⟩ := by
  obtain ⟨span, hname⟩ := readName_of_word stop hletters hgap hmark rest
  have hsigil : readSigil (letters ++ (gap ++ mark :: rest)) = (.none, letters ++ (gap ++ mark :: rest)) := by
    obtain ⟨g, letters, rfl, hg⟩ := exists_letter hletters
    exact readSigil_of_isAlphanum hg _
  have hblanks : dropBlanks (mark :: rest) = mark :: rest := by
    refine dropBlanks_eq_self fun g hg => ?_
    cases hg
    rcases hmark with hmark | hmark <;> simp [isBlank_char, Text.isBlank, hmark]
  simp only [readHead, hsigil, hname, hblanks, hdelimiter]
  exact ⟨span, _, rfl⟩

end Line

/-- The item has this name, this delimiter behind it and this text for its value, if any, and nothing is wrong
    with it. -/
structure PairItem.Bears (item : PairItem) (name : Word) (delimiter : Delimiter)
    (value : Option (String × ValueKind)) : Prop where
  sigil_eq : item.head.sigil = .none
  name_eq : ∃ span, item.head.name = some ⟨String.ofList name.chars, none, span⟩
  delimiter_eq : item.head.delimiter = delimiter
  value_eq : item.value = value.map fun v => .text v.1 v.2
  notes_eq : item.notes = []

/-- The item has this name and this text for its value, or no value and a block, and nothing is wrong
    with it. -/
def PairItem.Tells (item : PairItem) (name : Word) (value : Option (String × ValueKind)) : Prop :=
  item.Bears name (if value.isSome then .equal else .colon) value

/-- The text of a phrase, in double quotes. -/
def Phrase.quoted (value : Phrase) : String × ValueKind := (String.ofList value.chars, .doubleQuoted)

/-- The item is that of an entry with this name and this value. -/
def PairItem.Says (item : PairItem) (name : Word) (value : Option Phrase) : Prop :=
  item.Tells name (value.map Phrase.quoted)

namespace Line

open Glyph

variable (stop : Position) (margin : Margin) (groups : List Position) {unit : IndentUnit} {name : Word}
  {value : Option Phrase} {depth : Nat} {letters blanks rest written after : List Glyph} {layout : Layout}
  {behind body row : List Glyph} {item : PairItem} {head : Head}

/-- A pair with a text behind its name and an equals sign. -/
theorem exists_item_of_text (inGroup : Bool) (hletters : chars letters = name.chars) {space mark gap : Glyph}
    (hspace : space.char = ' ') (hmark : mark.char = '=') (hgap : gap.char = ' ') {content : String}
    {kind : ValueKind} {notes : List Note}
    (hvalue : readValue stop margin inGroup (gap :: after) = ⟨.text content kind, notes, rest⟩) :
    ∃ head item, { item with notes := [] }.Tells name (some (content, kind)) ∧ item.notes = notes ∧
      readHead stop (letters ++ space :: mark :: gap :: after) = ⟨head, [], gap :: after⟩ ∧
      isVacant head = false ∧ readBody stop margin inGroup head (gap :: after) = (item, rest) := by
  obtain ⟨span, span', hhead⟩ := readHead_of_word stop hletters [space] (by simpa using hspace) (.inl hmark)
    (readDelimiter_equal hmark hgap after)
  let head : Head := ⟨.none, some ⟨String.ofList name.chars, none, span⟩, .equal, span'⟩
  have hfound : readAnnounced stop margin inGroup (gap :: after) head.delimiter = some _ := congrArg some hvalue
  have hbody := readBody_of_found head hfound
  exact ⟨head, _, ⟨rfl, ⟨span, rfl⟩, rfl, hbody.1, rfl⟩, hbody.2.1, hhead, rfl, Prod.ext rfl hbody.2.2⟩

theorem exists_item_of_entry (inGroup : Bool) (hletters : chars letters = name.chars)
    (hwritten : chars written = Phrase.written value) (hrest : Clear rest) :
    ∃ head after item, item.Says name value ∧
      readHead stop (letters ++ (written ++ rest)) = ⟨head, [], after⟩ ∧ isVacant head = false ∧
      readBody stop margin inGroup head after = (item, rest) := by
  cases value with
  | none =>
    obtain ⟨mark, rfl, hmark⟩ : ∃ mark, written = [mark] ∧ mark.char = ':' := by
      simpa [chars, Phrase.written, map_eq_cons_iff] using hwritten
    obtain ⟨span, span', hhead⟩ := readHead_of_word stop hletters [] (by simp) (.inr hmark)
      (readDelimiter_colon hmark hrest)
    exact ⟨_, _, _, ⟨rfl, ⟨span, rfl⟩, rfl, rfl, rfl⟩, hhead, rfl, rfl⟩
  | some value =>
    obtain ⟨space, written, rfl, hspace, hwritten⟩ := map_eq_cons_iff.mp hwritten
    obtain ⟨mark, written, rfl, hmark, hwritten⟩ := map_eq_cons_iff.mp hwritten
    obtain ⟨gap, written, rfl, hgap, hwritten⟩ := map_eq_cons_iff.mp hwritten
    obtain ⟨opening, written, rfl, hopening, hwritten⟩ := map_eq_cons_iff.mp hwritten
    obtain ⟨body, written, rfl, hbody, hwritten⟩ := map_eq_append_iff.mp hwritten
    obtain ⟨closing, rfl, hclosing⟩ := map_eq_singleton_iff.mp hwritten
    have hvalue := readValue_of_phrase stop margin inGroup value hgap hopening hclosing hbody hrest
    obtain ⟨head, item, hitem, hnotes, hhead, hvacant, hread⟩ :=
      exists_item_of_text stop margin inGroup hletters hspace hmark hgap hvalue
    refine ⟨head, _, item, ⟨hitem.sigil_eq, hitem.name_eq, hitem.delimiter_eq, hitem.value_eq, hnotes⟩, ?_, hvacant,
      hread⟩
    simpa using hhead

theorem readItems_of_word
    (hletters : chars letters = name.chars) (hhead : readHead stop (letters ++ behind) = ⟨head, [], after⟩)
    (hvacant : isVacant head = false) (hbody : readBody stop margin (!groups.isEmpty) head after = (item, rest)) :
    readItems stop margin groups false (letters ++ behind) =
      (.pair item :: (readItems stop margin groups (isComplete item) rest).1,
        (readItems stop margin groups (isComplete item) rest).2) := by
  obtain ⟨g, letters, rfl, hg⟩ := exists_letter hletters
  have hne : ∀ d : Char, d.isAlphanum = false → g.char ≠ d := fun d => ne_of_isAlphanum hg
  have hblanks : dropBlanks (g :: (letters ++ behind)) = g :: (letters ++ behind) := by
    refine dropBlanks_eq_self fun g hg => ?_
    cases hg
    simp [isBlank_char, Text.isBlank, hne ' ', hne '\t']
  have hcomment := atComment_of_ne (hne '\'' (by decide)) (hne '"' (by decide)) (letters ++ behind)
  rw [cons_append] at hhead ⊢
  rw [readItems_of_cons hblanks]
  simp [isLineBreak_char, Text.isLineBreak, hne '\n', hne '\r', hcomment, hne ',', hne ')', hne '(', hhead, hvacant,
    hbody]

theorem readItems_of_item {value : Option (String × ValueKind)} (hletters : chars letters = name.chars)
    (hdelimiter : item.head.delimiter = if value.isSome then .equal else .colon)
    (hhead : readHead stop (letters ++ behind) = ⟨head, [], after⟩) (hvacant : isVacant head = false)
    (hbody : readBody stop margin (!groups.isEmpty) head after = (item, rest)) :
    readItems stop margin groups false (letters ++ behind) =
      (.pair item :: (readItems stop margin groups value.isSome rest).1,
        (readItems stop margin groups value.isSome rest).2) := by
  have hcomplete : isComplete item = value.isSome := by
    rw [isComplete, hdelimiter]
    cases value <;> rfl
  rw [readItems_of_word stop margin groups hletters hhead hvacant hbody, hcomplete]

theorem readItems_entry (hletters : chars letters = name.chars)
    (hwritten : chars written = Phrase.written value) (hrest : Clear rest) :
    ∃ item : PairItem, item.Says name value ∧ readItems stop margin groups false (letters ++ (written ++ rest)) =
        (.pair item :: (readItems stop margin groups value.isSome rest).1,
          (readItems stop margin groups value.isSome rest).2) := by
  obtain ⟨head, after, item, hitem, hhead, hvacant, hbody⟩ :=
    exists_item_of_entry stop margin (!groups.isEmpty) hletters hwritten hrest
  refine ⟨item, hitem, ?_⟩
  rw [readItems_of_item stop margin groups hletters hitem.delimiter_eq hhead hvacant hbody, Option.isSome_map]

theorem readItems_of_entry (hletters : chars letters = name.chars)
    (hwritten : chars written = Phrase.written value) (hend : atLineEnd rest) :
    ∃ item : PairItem, item.Says name value ∧
      readItems stop margin [] false (letters ++ (written ++ rest)) = ([.pair item], rest) := by
  obtain ⟨item, hitem, hread⟩ := readItems_entry stop margin [] hletters hwritten (clear_of_atLineEnd hend)
  refine ⟨item, hitem, ?_⟩
  rw [hread, readItems_of_atLineEnd stop margin _ hend]

def IndentUnit.indent (unit : IndentUnit) (depth : Nat) : Indent where
  width := depth * unit.width
  hasSpaces := decide (0 < depth * unit.width) && !unit.isTab
  hasTabs := decide (0 < depth * unit.width) && unit.isTab

section

variable (hblanks : chars blanks = unit.blanks depth)

include hblanks

theorem char_of_blanks : ∀ g ∈ blanks, g.char = if unit.isTab then '\t' else ' ' := by
  intro g hg
  have hmem : g.char ∈ chars blanks := mem_map_of_mem hg
  rw [hblanks] at hmem
  exact (mem_replicate.mp hmem).2

theorem isBlank_of_blanks : ∀ g ∈ blanks, g.isBlank := by
  intro g hg
  rw [isBlank_char, char_of_blanks hblanks g hg]
  cases unit.isTab <;> rfl

theorem indent_of_blanks
    (hbody : ∀ g ∈ body.head?, g.isBlank = false) : Indent.of (blanks ++ body) = unit.indent depth := by
  have htake : (blanks ++ body).takeWhile isBlank = blanks := by
    rw [takeWhile_append_of_pos (isBlank_of_blanks hblanks)]
    cases body with
    | nil => simp
    | cons g body => simp [hbody g rfl]
  have hlength : blanks.length = depth * unit.width := by
    simpa [chars, IndentUnit.blanks] using congrArg List.length hblanks
  have hany : ∀ c : Char, blanks.any (·.char == c) = (unit.blanks depth).any (· == c) := by
    intro c
    rw [← hblanks, chars, any_map]
    rfl
  simp only [Indent.of, htake, hany, hlength, IndentUnit.indent, IndentUnit.blanks, any_replicate]
  rcases Nat.eq_zero_or_pos (depth * unit.width) with hzero | hpos
  · simp [hzero]
  · cases unit.isTab <;> simp [hpos, Nat.ne_of_gt hpos]

end

/-- Nothing is known of the unit, and at most one block is open, or the unit is this one. -/
def Layout.Fits (unit : IndentUnit) (layout : Layout) : Prop :=
  (layout.unit = none ∧ layout.openBlocks ≤ 1) ∨ layout.unit = some unit

theorem measure_of_fits (hunit : 0 < unit.width) (hfits : layout.Fits unit) (hdepth : depth ≤ layout.openBlocks)
    (span : Span) :
    ∃ next, layout.measure (unit.indent depth) span = .ok (depth, next) ∧ Layout.Fits unit ⟨next, depth + 1⟩ := by
  rcases Nat.eq_zero_or_pos depth with rfl | hpos
  · refine ⟨layout.unit, by simp [Layout.measure, IndentUnit.indent], ?_⟩
    exact hfits.imp_left fun h => ⟨h.1, Nat.le_refl _⟩
  · have hwidth : 0 < depth * unit.width := Nat.mul_pos hpos hunit
    obtain ⟨isTab, width⟩ := unit
    refine ⟨some ⟨isTab, width⟩, ?_, .inr rfl⟩
    rcases hfits with ⟨hnone, hopen⟩ | hsome
    · obtain rfl : depth = 1 := by omega
      have hone : layout.openBlocks ≠ 0 := by omega
      rw [Nat.one_mul] at hwidth
      cases isTab <;> simp [Layout.measure, IndentUnit.indent, hnone, hone, hwidth, Nat.ne_of_gt hwidth]
    · have hroom : ¬ layout.openBlocks < depth := by omega
      cases isTab <;> simp [Layout.measure, IndentUnit.indent, hsome, hwidth, Nat.ne_of_gt hwidth, hroom,
        Nat.mul_div_cancel _ hunit]

theorem joinWith_cons_cons (separator : Char) (row next : List Char) (rows : List (List Char)) :
    joinWith separator (row :: next :: rows) = row ++ separator :: joinWith separator (next :: rows) := by
  simp [joinWith]

/-- The first row ends where the text ends or its other rows begin. -/
theorem exists_joinWith_cons (row : List Char) (rows : List (List Char)) :
    ∃ tail, joinWith '\n' (row :: rows) = row ++ tail ∧
      ∀ rest : List Glyph, chars rest = tail → atLineEnd rest ∧ chars (dropLineBreak rest) = joinWith '\n' rows := by
  cases rows with
  | nil =>
    refine ⟨[], by simp [joinWith], fun rest hrest => ?_⟩
    obtain rfl : rest = [] := map_eq_nil_iff.mp hrest
    exact ⟨rfl, rfl⟩
  | cons next rows =>
    refine ⟨'\n' :: joinWith '\n' (next :: rows), joinWith_cons_cons '\n' row next rows, fun rest hrest => ?_⟩
    obtain ⟨g, rest, rfl, hg, hrest⟩ := map_eq_cons_iff.mp hrest
    have hbreak : g.isLineBreak := by simp [isLineBreak_char, Text.isLineBreak, hg]
    refine ⟨hbreak, ?_⟩
    rw [dropLineBreak, if_pos hbreak]
    exact hrest

theorem not_mem_joinWith {c separator : Char} (hne : c ≠ separator) {rows : List (List Char)}
    (hrows : ∀ row ∈ rows, c ∉ row) : c ∉ joinWith separator rows := by
  induction rows with
  | nil => simp [joinWith]
  | cons row rows ih =>
    have hrow := hrows row mem_cons_self
    have hothers := ih fun row hmem => hrows row (mem_cons_of_mem _ hmem)
    cases rows with
    | nil => simpa [joinWith] using hrow
    | cons next rows =>
      rw [joinWith_cons_cons]
      simp [hrow, hne, hothers]

theorem dropLine_of_atLineEnd {gs : List Glyph} (hend : atLineEnd gs) : dropLine gs = gs := by
  cases gs with
  | nil => rfl
  | cons g gs =>
    have hbreak : g.isLineBreak := hend
    exact dropWhile_cons_of_neg (by simp [hbreak])

theorem readLine_filler (layout : Layout) (filler : Filler)
    (hrow : chars row = (Row.filler filler).text unit) (hend : atLineEnd rest) :
    ∃ lines, readLine stop layout (row ++ rest) = ⟨lines, layout, dropLineBreak rest⟩ ∧
      (lines = [] ∨ ∃ depth, ∃ comment : Comment, comment.isClosed ∧ lines = [.comments depth [comment]]) := by
  obtain ⟨blanks, written, rfl, hblanks, hwritten⟩ := map_eq_append_iff.mp hrow
  have hblank : ∀ g ∈ blanks, g.isBlank := by
    intro g hg
    rw [isBlank_char]
    exact filler.isBlank _ (hblanks ▸ mem_map_of_mem hg)
  cases hcomment : filler.comment with
  | none =>
    rw [hcomment] at hwritten
    obtain rfl : written = [] := map_eq_nil_iff.mp hwritten
    have hbody : dropBlanks (blanks ++ rest) = rest := by
      rw [dropBlanks, dropWhile_append_of_pos hblank]
      exact dropBlanks_of_atLineEnd hend
    refine ⟨[], ?_, .inl rfl⟩
    simp only [readLine, append_nil, hbody, readComments_of_atLineEnd stop hend, isEmpty_nil, hend, if_true]
  | some text =>
    rw [hcomment] at hwritten
    obtain ⟨a, written, rfl, ha, hwritten⟩ := map_eq_cons_iff.mp hwritten
    obtain ⟨b, written, rfl, hb, hwritten⟩ := map_eq_cons_iff.mp hwritten
    obtain ⟨c, written, rfl, hc, hwritten⟩ := map_eq_cons_iff.mp hwritten
    have hinLine : ∀ g ∈ written, g.isLineBreak = false := by
      intro g hg
      have hmem : g.char ∈ chars written := mem_map_of_mem hg
      rw [isLineBreak_char]
      exact filler.inLine text hcomment _ (hwritten.subst hmem)
    have hbody : dropBlanks (blanks ++ a :: b :: c :: written ++ rest) = a :: b :: c :: (written ++ rest) := by
      rw [append_assoc]
      refine dropBlanks_append hblank fun g hg => ?_
      cases hg
      simp [isBlank_char, Text.isBlank, ha]
    obtain ⟨comment, hclosed, hread⟩ := readComments_of_single stop ha hb hc hinLine hend
    let depth := layout.commentDepth (Indent.of (blanks ++ a :: b :: c :: written ++ rest)).width
    refine ⟨[.comments depth [comment]], ?_, .inr ⟨depth, comment, hclosed, rfl⟩⟩
    simp only [readLine, hbody, hread, hend, if_true]
    rfl

/-- A row that begins with a letter or a digit gives its items, and a layout in which a block is open
    below it. -/
theorem readLine_of_items (hunit : 0 < unit.width) (hfits : layout.Fits unit)
    (hdepth : depth ≤ layout.openBlocks) (hblanks : chars blanks = unit.blanks depth)
    (hbody : ∃ g more, body = g :: more ∧ g.char.isAlphanum) {P : List Item → Prop}
    (hitems : ∀ next span, layout.measure (unit.indent depth) span = .ok (depth, next) → ∃ items, P items ∧
      items.any Item.isPair ∧ readItems stop ⟨next, (unit.indent depth).width⟩ [] false body = (items, rest))
    (hend : atLineEnd rest) :
    ∃ lead items next, P items ∧ layout.measure (unit.indent depth) lead = .ok (depth, next) ∧
      Layout.Fits unit ⟨next, depth + 1⟩ ∧ readLine stop layout (blanks ++ body) =
        ⟨[.content depth lead items], ⟨next, depth + 1⟩, dropLineBreak rest⟩ := by
  obtain ⟨g, more, rfl, hg⟩ := hbody
  have hne : ∀ d : Char, d.isAlphanum = false → g.char ≠ d := fun d => ne_of_isAlphanum hg
  have hhead : ∀ x ∈ (g :: more).head?, x.isBlank = false := by
    rintro x ⟨⟩
    simp [isBlank_char, Text.isBlank, hne ' ', hne '\t']
  have hdrop := dropBlanks_append (isBlank_of_blanks hblanks) hhead
  have hindent := indent_of_blanks hblanks hhead
  have hcomments : readComments stop (g :: more) = ([], g :: more) := by
    have hcomment := atComment_of_ne (hne '\'' (by decide)) (hne '"' (by decide)) more
    rw [readComments, dif_neg (by simp [hcomment])]
  have hnotEnd : atLineEnd (g :: more) = false := by
    simp [atLineEnd, isLineBreak_char, Text.isLineBreak, hne '\n', hne '\r']
  obtain ⟨lead, hlead⟩ : ∃ lead : Span, lead = ⟨here stop (blanks ++ g :: more), here stop (g :: more)⟩ := ⟨_, rfl⟩
  obtain ⟨next, hmeasure, hfits⟩ := measure_of_fits hunit hfits hdepth lead
  obtain ⟨items, hP, hpair, hread⟩ := hitems next lead hmeasure
  refine ⟨lead, items, next, hP, hmeasure, hfits, ?_⟩
  simp only [readLine, hdrop, hindent, hcomments, hnotEnd, ← hlead, hmeasure, hread,
    dropLine_of_atLineEnd hend, hpair, if_true]
  rfl

theorem readLine_entry (hunit : 0 < unit.width) (hfits : layout.Fits unit) (hdepth : depth ≤ layout.openBlocks)
    (hrow : chars row = (Row.entry depth name value).text unit)
    (hend : atLineEnd rest) :
    ∃ lead, ∃ item : PairItem, ∃ next, item.Says name value ∧ Layout.Fits unit ⟨next, depth + 1⟩ ∧
      readLine stop layout (row ++ rest) =
        ⟨[.content depth lead [.pair item]], ⟨next, depth + 1⟩, dropLineBreak rest⟩ := by
  obtain ⟨blanks, row, rfl, hblanks, hrow⟩ := map_eq_append_iff.mp hrow
  obtain ⟨letters, written, rfl, hletters, hwritten⟩ := map_eq_append_iff.mp hrow
  have hbody : ∃ g more, letters ++ (written ++ rest) = g :: more ∧ g.char.isAlphanum := by
    obtain ⟨g, more, rfl, hg⟩ := exists_letter hletters
    exact ⟨g, more ++ (written ++ rest), rfl, hg⟩
  obtain ⟨lead, _, next, ⟨item, hitem, rfl⟩, -, hfits, hread⟩ :=
    readLine_of_items stop hunit hfits hdepth hblanks hbody
      (P := fun items => ∃ item : PairItem, item.Says name value ∧ items = [.pair item])
      (fun next _ _ =>
        have ⟨item, hitem, hread⟩ := readItems_of_entry stop ⟨next, _⟩ hletters hwritten hend
        ⟨_, ⟨item, hitem, rfl⟩, rfl, hread⟩) hend
  refine ⟨lead, item, next, hitem, hfits, ?_⟩
  rw [append_assoc, append_assoc]
  exact hread

end Line

/-- The lines are those of the entries in the rows, with closed comments between them. -/
inductive Row.Printed : List Row → List Line → Prop
  | nil : Printed [] []
  | comment {rows : List Row} {lines : List Line} (depth : Nat) {comment : Comment}
      (hclosed : comment.isClosed = true) (hlines : Printed rows lines) :
      Printed rows (.comments depth [comment] :: lines)
  | entry {rows : List Row} {lines : List Line} (depth : Nat) {name : Word} {value : Option Phrase}
      (lead : Span) {item : PairItem} (hitem : item.Says name value) (hlines : Printed rows lines) :
      Printed (.entry depth name value :: rows) (.content depth lead [.pair item] :: lines)

theorem Word.return_not_mem (name : Word) : '\r' ∉ name.chars := by
  intro h
  have := name.isAlphanum _ h
  revert this
  decide

theorem Phrase.return_not_mem_written (value : Option Phrase) : '\r' ∉ written value := by
  cases value with
  | none => simp [written]
  | some value =>
    have hphrase : '\r' ∉ value.chars := by
      intro h
      have := value.isPlain _ h
      revert this
      decide
    simp [written, hphrase]

namespace Row

variable (unit : Line.IndentUnit) {layout : Line.Layout} {gs : List Glyph}

theorem return_not_mem_text (row : Row) : '\r' ∉ row.text unit := by
  intro hmem
  cases row with
  | filler filler =>
    rcases mem_append.mp hmem with hblank | hcomment
    · have := filler.isBlank _ hblank
      revert this
      decide
    · cases htext : filler.comment with
      | none => simp [htext] at hcomment
      | some text =>
        have hinLine : '\r' ∉ text := by
          intro h
          have := filler.inLine text htext _ h
          revert this
          decide
        simp [htext, hinLine] at hcomment
  | entry depth name value =>
    have hblanks : '\r' ∉ unit.blanks depth := by
      intro h
      have heq := (mem_replicate.mp h).2
      cases hTab : unit.isTab <;> simp [hTab] at heq
    simp [text, name.return_not_mem, Phrase.return_not_mem_written, hblanks] at hmem

theorem return_not_mem_page (rows : List Row) : '\r' ∉ page unit rows := by
  refine not_mem_joinWith (by decide) fun text htext => ?_
  obtain ⟨row, -, rfl⟩ := mem_map.mp htext
  exact return_not_mem_text unit row

variable {rows : List Row} {unit : Line.IndentUnit} (hunit : 0 < unit.width)

include hunit

/-- The first line of a page is that of the entry in its first row. -/
theorem readLines_entry (stop : Position)
    (hfits : layout.Fits unit) {depth : Nat} (hdepth : depth ≤ layout.openBlocks)
    {name : Word} {value : Option Phrase} (hgs : chars gs = page unit (.entry depth name value :: rows)) :
    ∃ lead, ∃ item : PairItem, ∃ next rest, item.Says name value ∧ Line.Layout.Fits unit ⟨next, depth + 1⟩ ∧
      chars rest = page unit rows ∧ readLines stop layout gs =
        .content depth lead [.pair item] :: readLines stop ⟨next, depth + 1⟩ rest := by
  obtain ⟨tail, hpage, htail⟩ := exists_joinWith_cons (text unit (.entry depth name value)) (rows.map (text unit))
  obtain ⟨first, rest, rfl, hfirst, hrest⟩ := map_eq_append_iff.mp (hgs.trans hpage)
  obtain ⟨hend, hnext⟩ := htail rest hrest
  obtain ⟨lead, item, next, hitem, hfits, hread⟩ := readLine_entry stop hunit hfits hdepth hfirst hend
  exact ⟨lead, item, next, _, hitem, hfits, hnext, readLines_of_readLine hread⟩

theorem printed_readLines (stop : Position)
    (rows : List Row) (hfits : layout.Fits unit) (hsteps : Steps layout.openBlocks rows)
    (hgs : chars gs = page unit rows) :
    Printed (rows.filter fun row => !row.isFiller) (readLines stop layout gs) := by
  induction rows generalizing layout gs with
  | nil =>
    obtain rfl : gs = [] := map_eq_nil_iff.mp hgs
    rw [readLines_nil]
    exact .nil
  | cons row rows ih =>
    cases row with
    | filler filler =>
      obtain ⟨tail, hpage, htail⟩ := exists_joinWith_cons (text unit (.filler filler)) (rows.map (text unit))
      obtain ⟨first, rest, rfl, hfirst, hrest⟩ := map_eq_append_iff.mp (hgs.trans hpage)
      obtain ⟨hend, hnext⟩ := htail rest hrest
      obtain ⟨lines, hread, hlines⟩ := readLine_filler stop layout filler hfirst hend
      have hrows := ih hfits hsteps hnext
      rw [readLines_of_readLine hread]
      rcases hlines with rfl | ⟨depth, comment, hclosed, rfl⟩
      · exact hrows
      · exact .comment depth hclosed hrows
    | entry depth name value =>
      obtain ⟨hdepth, hsteps⟩ := hsteps
      obtain ⟨lead, item, next, rest, hitem, hfits, hrest, hread⟩ := readLines_entry hunit stop hfits hdepth hgs
      rw [hread]
      exact .entry depth lead hitem (ih hfits hsteps hrest)

/-- The lines of a page are those of its entries, if each of them may stand where it does. -/
theorem printed_ofText (hsteps : Steps 0 rows) :
    Printed (rows.filter fun row => !row.isFiller) (ofText (page unit rows)) :=
  printed_readLines hunit _ rows (.inl ⟨rfl, Nat.zero_le _⟩) hsteps (chars_place (return_not_mem_page unit rows) _)

end Row

end PairMarkup
