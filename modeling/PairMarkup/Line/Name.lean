import PairMarkup.Line.Escape

namespace PairMarkup.Line

open Glyph

variable (gs : List Glyph) (stop : Position)

def sigilOf (text : List Char) : Sigil :=
  match text[0]?, text[1]? with
  | some '!', some '$' => .aliasDefinition
  | some '!', some '#' => .namespaceDefinition
  | some '!', some '%' => .parameter
  | some '!', _ => .document
  | some '$', _ => .aliasUsage
  | some '%', _ => .percent
  | some '#', _ => .scope
  | some '@', _ => .attr
  | _, _ => .none

def readSigil : Sigil × List Glyph :=
  let sigil := sigilOf (raw 2 gs)
  (sigil, gs.drop sigil.width)

def delimiterOf (text : List Char) : Delimiter :=
  match text[0]?, text[1]? with
  | some '=', some '=' => .doubleEqual
  | some '=', some ':' => .equalColon
  | some '=', _ => .equal
  | some ':', some ':' => .doubleColon
  | some ':', some '=' => .colonEqual
  | some ':', _ => .colon
  | _, _ => .none

def readDelimiter : Delimiter × List Glyph :=
  let delimiter := delimiterOf (raw 2 gs)
  (delimiter, gs.drop delimiter.width)

theorem readSigil_suffix : (readSigil gs).2 <:+ gs := List.drop_suffix _ _

theorem readDelimiter_suffix : (readDelimiter gs).2 <:+ gs := List.drop_suffix _ _

/-- A name without quotes goes up to a delimiter, a separator, a parenthesis, a
    quote or the end of the line. -/
def endsName : List Glyph → Bool
  | [] => true
  | g :: _ =>
    g.isLineBreak || g.char == '=' || g.char == ':' || g.char == ',' || g.char == '\'' ||
      g.char == '"' || g.char == ')' || g.char == '('

/-- A name without quotes and the text behind it. White space at its end does
    not belong to it, but is passed over. -/
def readBareName (gs : List Glyph) : Option Name × List Glyph :=
  let (taken, rest) := breakAt endsName gs
  let text := Text.trimEnd (chars taken)
  if text.isEmpty then (none, rest)
  else (some ⟨String.ofList text, none, here stop gs, here stop (gs.drop text.length)⟩, rest)

/-- Reads on after the opening quote of a name, which is at `start`. -/
def readQuotedText (stop start : Position) (quote : Char) (gs : List Glyph) : Read (List Char) :=
  match gs with
  | [] => ⟨[], [missingQuote ⟨start, stop⟩], []⟩
  | g :: rest =>
    if g.isLineBreak then ⟨[], [missingQuote ⟨start, g.position⟩], g :: rest⟩
    else if g.char = quote then ⟨[], [], rest⟩
    else if g.char = '\\' && quote = '"' then
      have := (readEscape_suffix stop g.position rest).length_le
      let escape := readEscape stop g.position rest
      let more := readQuotedText stop start quote escape.rest
      ⟨escape.value ++ more.value, escape.notes ++ more.notes, more.rest⟩
    else
      let more := readQuotedText stop start quote rest
      ⟨g.char :: more.value, more.notes, more.rest⟩
termination_by gs.length
decreasing_by all_goals simp only [List.length_cons]; omega

def readName (gs : List Glyph) : Read (Option Name) :=
  match gs with
  | [] => ⟨none, [], []⟩
  | g :: rest =>
    if atComment (g :: rest) then ⟨none, [], g :: rest⟩
    else if g.char = '\'' || g.char = '"' then
      let text := readQuotedText stop g.position g.char rest
      let name := ⟨String.ofList text.value, some g.char, g.position, here stop text.rest⟩
      ⟨some name, text.notes, text.rest⟩
    else
      let (name, after) := readBareName stop (g :: rest)
      ⟨name, [], after⟩

theorem readBareName_suffix (gs : List Glyph) : (readBareName stop gs).2 <:+ gs := by
  simp only [readBareName]
  split <;> exact breakAt_suffix _ gs

theorem readQuotedText_suffix (start : Position) (quote : Char) (gs : List Glyph) :
    (readQuotedText stop start quote gs).rest <:+ gs := by
  fun_induction readQuotedText stop start quote gs with
  | case1 => exact List.suffix_refl _
  | case2 g rest _ => exact List.suffix_refl _
  | case3 g rest _ _ => exact List.suffix_cons g rest
  | case4 g rest _ _ _ _ escape more ih =>
    exact ih.trans ((readEscape_suffix stop g.position rest).trans (List.suffix_cons g rest))
  | case5 g rest _ _ _ more ih => exact ih.trans (List.suffix_cons g rest)

theorem readName_suffix (gs : List Glyph) : (readName stop gs).rest <:+ gs := by
  unfold readName
  split
  · exact List.suffix_refl _
  · next g rest =>
    split
    · exact List.suffix_refl _
    · split
      · exact (readQuotedText_suffix _ _ _ rest).trans (List.suffix_cons g rest)
      · exact readBareName_suffix stop (g :: rest)

end PairMarkup.Line
