import PairMarkup.Line.Margin
import PairMarkup.Line.Name
import PairMarkup.Line.Reference

namespace PairMarkup.Line

open Glyph List

/-- Whether the value goes on on the line behind this line break: the line is
    not blank and is indented deeper than the one that the value begins on. -/
def Margin.continues (margin : Margin) (next : List Glyph) : Bool :=
  !atLineEnd (dropBlanks next) && decide (margin.width < (Indent.of next).width)

variable (stop : Position) (margin : Margin) (inGroup : Bool) (gs : List Glyph)

/-- The further lines of a value without quotes. The blanks of the first of
    them, or as many as `strip` says, are taken off each. -/
def readFurtherLines (strip : Option Nat) (gs : List Glyph) : Read (List (List Char)) :=
  match gs with
  | [] => ⟨[], [], []⟩
  | g :: next =>
    if g.isLineBreak && margin.continues next then
      let width := (Indent.of next).width
      let strip := strip.getD width
      let body := next.drop (min strip width)
      let line := chars (body.takeWhile fun g => !g.isLineBreak)
      let more := readFurtherLines (some strip) (dropLine body)
      ⟨line :: more.value, margin.check stop next ++ more.notes, more.rest⟩
    else ⟨[], [], g :: next⟩
termination_by gs.length
decreasing_by
  exact Nat.lt_succ_of_le ((dropLine_suffix _).trans (drop_suffix _ _)).length_le

def joinWith (separator : Char) (lines : List (List Char)) : List Char := intercalate [separator] lines

/-- A value without quotes, of which `first` was read on the line it begins on,
    with the lines that it goes on on. Without any it is `otherwise`. -/
def readFolded (first : List (List Char)) (otherwise : Value) (gs : List Glyph) : Read Value :=
  let further := readFurtherLines stop margin none gs
  if further.value.isEmpty then ⟨otherwise, [], gs⟩
  else
    let text := joinWith ' ' (first ++ further.value.map Text.trim)
    ⟨.text (String.ofList text) .foldedOpenString, further.notes, further.rest⟩

def endsOpenString : List Glyph → Bool
  | [] => true
  | g :: rest =>
    g.isLineBreak || g.char == ',' || (g.char == ')' && inGroup) || atComment (g :: rest)

/-- A text without quotes goes up to a separator, a comment or the end of the
    line, and in the last case may go on on further lines. -/
def readOpenString (gs : List Glyph) : Read Value :=
  let (taken, rest) := breakAt (endsOpenString inGroup) gs
  let text := Text.trimEnd (chars taken)
  let value := if text.isEmpty then .text "" .empty else .bare (String.ofList text)
  if atLineEnd rest then readFolded stop margin [text] value rest else ⟨value, [], rest⟩

/-- A free text is all that remains of the line and of the further lines. -/
def readFreeString : Read Value :=
  let body := dropBlanks gs
  let first := Text.trimEnd (chars (body.takeWhile fun g => !g.isLineBreak))
  let further := readFurtherLines stop margin none (dropLine body)
  let lines := (if first.isEmpty then [] else [first]) ++ further.value.map Text.trimEnd
  let text := joinWith '\n' lines
  ⟨.text (String.ofList text) (if text.isEmpty then .empty else .openString), further.notes,
    further.rest⟩

/-- What a quoted text is made of. -/
inductive Piece where
  | char (c : Char)
  | reference (found : Reference)
deriving DecidableEq

/-- The blanks of a further line up to the column of the opening quote. -/
def dropUpToColumn (column : Nat) (gs : List Glyph) : List Glyph :=
  gs.dropWhile fun g => g.isBlank && decide (g.position.column ≤ column)

theorem dropUpToColumn_suffix (column : Nat) (gs : List Glyph) : dropUpToColumn column gs <:+ gs := dropWhile_suffix _

/-- Whether a reference begins here inside of a quoted text. -/
def isReferenceStart : List Char → Bool
  | c :: next :: _ => (c == '$' || c == '%') && isReferenceChar next
  | _ => false

def referenceInText : Bool := isReferenceStart (raw 2 gs)

/-- Reads on after the opening quote of a value, which is at `start`. The text
    goes on over blank lines and lines that are indented deeper than the one it
    begins on. Between double quotes there may be escapes and references. -/
def readPieces (start : Position) (quote : Char) (gs : List Glyph) : Read (List Piece) :=
  match gs with
  | [] => ⟨[], [missingQuote ⟨start, stop⟩], []⟩
  | g :: rest =>
    if g.char = quote then ⟨[], [], rest⟩
    else if g.isLineBreak then
      if atLineEnd (dropBlanks rest) || margin.continues rest then
        have := (dropUpToColumn_suffix start.column rest).length_le
        let more := readPieces start quote (dropUpToColumn start.column rest)
        ⟨.char '\n' :: more.value, margin.check stop rest ++ more.notes, more.rest⟩
      else ⟨[], [missingQuote ⟨start, g.position⟩], g :: rest⟩
    else if g.char = '\\' && quote = '"' then
      have := (readEscape_suffix stop g.position rest).length_le
      let escape := readEscape stop g.position rest
      let more := readPieces start quote escape.rest
      ⟨escape.value.map .char ++ more.value, escape.notes ++ more.notes, more.rest⟩
    else if quote = '"' && referenceInText (g :: rest) then
      have := length_readReference_lt stop g rest
      let reference := readReference stop (g :: rest)
      let more := readPieces start quote reference.2
      ⟨.reference reference.1 :: more.value, more.notes, more.rest⟩
    else
      let more := readPieces start quote rest
      ⟨.char g.char :: more.value, more.notes, more.rest⟩
termination_by gs.length
decreasing_by
  · exact Nat.lt_succ_of_le this
  · exact Nat.lt_succ_of_le this
  · exact this
  · exact Nat.lt_succ_self _

/-- Puts adjoining characters together. The text at hand is `literal`, in
    reverse, and begins at `start`; the last piece ends at `stop`. -/
def segments (stop : Position) : Position → List Char → List Piece → List Segment
  | start, literal, [] => textSegment start stop literal
  | start, literal, .char c :: pieces => segments stop start (c :: literal) pieces
  | start, literal, .reference found :: pieces =>
    textSegment start found.span.start literal ++ .reference found :: segments stop found.span.stop [] pieces
where
  textSegment (start stop : Position) (literal : List Char) : List Segment :=
    if literal.isEmpty then [] else [.text (String.ofList literal.reverse) ⟨start, stop⟩]

def Piece.isReference : Piece → Bool
  | reference _ => true
  | char _ => false

def Piece.char? : Piece → Option Char
  | char c => some c
  | reference _ => none

theorem reference_mem_segments {stop start : Position} {literal : List Char} {pieces : List Piece}
    {found : Reference} : .reference found ∈ segments stop start literal pieces ↔ .reference found ∈ pieces := by
  have htext : ∀ start stop literal, .reference found ∉ segments.textSegment start stop literal := by
    intro start stop literal hmem
    unfold segments.textSegment at hmem
    split at hmem
    · cases hmem
    · cases mem_singleton.mp hmem
  induction pieces generalizing start literal with
  | nil => simpa [segments] using htext start stop literal
  | cons piece pieces ih =>
    cases piece with
    | char c => simp [segments, ih]
    | reference first => simp [segments, ih, htext]

theorem segments_ne_nil {stop start : Position} {pieces : List Piece} (h : pieces.any Piece.isReference) :
    segments stop start [] pieces ≠ [] := by
  obtain ⟨piece, hpiece, hreference⟩ := any_eq_true.mp h
  cases piece with
  | char c => cases hreference
  | reference found => exact ne_nil_of_mem (reference_mem_segments.mpr hpiece)

/-- A value in quotes. It is one text if there is no reference in it. -/
def readQuoted (g : Glyph) (rest : List Glyph) : Read Value :=
  let pieces := readPieces stop margin g.position g.char rest
  let value :=
    if hreference : pieces.value.any Piece.isReference then
      .segments (segments (here stop pieces.rest) (here stop rest) [] pieces.value) (segments_ne_nil hreference)
    else
      .text (String.ofList (pieces.value.filterMap Piece.char?))
        (if g.char = '"' then .doubleQuoted else .singleQuoted)
  ⟨value, pieces.notes, pieces.rest⟩

/-- The value behind a single equals sign. -/
def readValue (gs : List Glyph) : Read Value :=
  match dropBlanks gs with
  | [] => ⟨.text "" .empty, [], []⟩
  | g :: rest =>
    if g.isLineBreak then readFolded stop margin [] (.text "" .empty) (g :: rest)
    else if atComment (g :: rest) then ⟨.text "" .empty, [], g :: rest⟩
    else if g.char = '\'' || g.char = '"' then readQuoted stop margin g rest
    else if (g.char = '$' || g.char = '%') && referenceAhead inGroup (g :: rest) then
      let (found, after) := readReference stop (g :: rest)
      ⟨.reference found, [], after⟩
    else readOpenString stop margin inGroup (g :: rest)

theorem readFurtherLines_suffix (strip : Option Nat) (gs : List Glyph) :
    (readFurtherLines stop margin strip gs).rest <:+ gs := by
  fun_induction readFurtherLines stop margin strip gs with
  | case1 => exact suffix_refl _
  | case2 _ g next _ width strip body line more ih =>
    exact ih.trans ((dropLine_suffix body).trans ((drop_suffix _ next).trans (suffix_cons g next)))
  | case3 _ g next _ => exact suffix_refl _

theorem readFolded_suffix (first : List (List Char)) (otherwise : Value) (gs : List Glyph) :
    (readFolded stop margin first otherwise gs).rest <:+ gs := by
  simp only [readFolded]
  split
  · exact suffix_refl _
  · exact readFurtherLines_suffix stop margin none gs

theorem readOpenString_suffix (gs : List Glyph) : (readOpenString stop margin inGroup gs).rest <:+ gs := by
  simp only [readOpenString]
  split
  · exact (readFolded_suffix stop margin _ _ _).trans (breakAt_suffix _ gs)
  · exact breakAt_suffix _ gs

theorem readFreeString_suffix : (readFreeString stop margin gs).rest <:+ gs :=
  (readFurtherLines_suffix stop margin none _).trans ((dropLine_suffix _).trans (dropBlanks_suffix gs))

theorem readPieces_suffix (start : Position) (quote : Char) (gs : List Glyph) :
    (readPieces stop margin start quote gs).rest <:+ gs := by
  fun_induction readPieces stop margin start quote gs with
  | case1 => exact suffix_refl _
  | case2 g rest _ => exact suffix_cons g rest
  | case3 g rest _ _ _ _ more ih =>
    exact ih.trans ((dropUpToColumn_suffix _ rest).trans (suffix_cons g rest))
  | case4 g rest _ _ _ => exact suffix_refl _
  | case5 g rest _ _ _ _ escape more ih =>
    exact ih.trans ((readEscape_suffix stop g.position rest).trans (suffix_cons g rest))
  | case6 g rest _ _ _ _ _ reference more ih =>
    exact ih.trans (readReference_suffix stop (g :: rest))
  | case7 g rest _ _ _ _ more ih => exact ih.trans (suffix_cons g rest)

theorem readValue_suffix (gs : List Glyph) : (readValue stop margin inGroup gs).rest <:+ gs := by
  have hblanks := dropBlanks_suffix gs
  unfold readValue
  split
  · next hnil => exact hnil ▸ hblanks
  · next g rest hcons =>
    rw [hcons] at hblanks
    refine IsSuffix.trans ?_ hblanks
    split
    · exact readFolded_suffix stop margin _ _ _
    · split
      · exact suffix_refl _
      · split
        · exact (readPieces_suffix _ _ _ _ rest).trans (suffix_cons g rest)
        · split
          · exact readReference_suffix stop (g :: rest)
          · exact readOpenString_suffix stop margin inGroup (g :: rest)

end PairMarkup.Line
