import PairMarkup.Line.Comment
import PairMarkup.Line.Value

namespace PairMarkup.Line

open Glyph List

/-- Whether nothing at all was found where a pair should begin. -/
def isVacant (head : Head) : Bool := head.sigil == .none && head.name.isNone && head.delimiter == .none

def readHead (stop : Position) (gs : List Glyph) : Read Head :=
  let sigil := readSigil gs
  let name := readName stop sigil.2
  let delimiter := readDelimiter (dropBlanks name.rest)
  ⟨⟨sigil.1, name.value, delimiter.1, here stop gs, here stop delimiter.2⟩, name.notes, delimiter.2⟩

section

variable (stop : Position) (margin : Margin) (inGroup : Bool)

def readAnnounced (gs : List Glyph) : Delimiter → Option (Read Value)
  | .equal => some (readValue stop margin inGroup gs)
  | .doubleEqual => some (readFreeString stop margin gs)
  | _ => none

variable {gs : List Glyph} {delimiter : Delimiter}

theorem isSome_readAnnounced :
    ((readAnnounced stop margin inGroup gs delimiter).map (·.value)).isSome = delimiter.isValue := by
  cases delimiter <;> rfl

theorem readAnnounced_group {opens : Bool} (h : (delimiter == .none && opens) = true) :
    (readAnnounced stop margin inGroup gs delimiter).map (·.value) = none := by
  rw [eq_of_beq (Bool.and_eq_true_iff.mp h).1]
  rfl

theorem readAnnounced_free (h : delimiter = .doubleEqual) :
    ∃ content kind, (readAnnounced stop margin inGroup gs delimiter).map (·.value) = some (.text content kind) :=
  h ▸ ⟨_, _, rfl⟩

/-- Reads on after the head of a pair. -/
def readBody (head : Head) (gs : List Glyph) : PairItem × List Glyph :=
  let found := readAnnounced stop margin inGroup gs head.delimiter
  let rest := found.elim gs (·.rest)
  (⟨head, found.map (·.value), found.elim [] (·.notes), here stop rest,
    head.delimiter == .none && (dropBlanks gs).head?.any (·.char == '('), isSome_readAnnounced ..,
    readAnnounced_group stop margin inGroup, readAnnounced_free stop margin inGroup⟩, rest)

theorem readBody_suffix (head : Head) (gs : List Glyph) : (readBody stop margin inGroup head gs).2 <:+ gs := by
  change (readAnnounced stop margin inGroup gs head.delimiter).elim gs (·.rest) <:+ gs
  cases head.delimiter with
  | equal => exact readValue_suffix stop margin inGroup gs
  | doubleEqual => exact readFreeString_suffix stop margin gs
  | _ => exact suffix_refl _

end

/-- Nothing but a separator, a closing parenthesis or a comment may follow. -/
def isComplete (item : PairItem) : Bool :=
  item.head.delimiter.isValue || (item.head.delimiter == .none && !item.opensGroup)

/-- Groups that are still open at the end of a line, innermost first. -/
def unclosed (groups : List Position) : List Item :=
  groups.map fun start => .note (.mk .missingClosingParenthesis [] (.point start))

def unexpected (found : Option Char) (position : Position) : Item :=
  .note (.mk .unexpectedCharacter [String.ofList found.toList] (.point position))

theorem length_drop_lt {n : Nat} (hn : 0 < n) (g : Glyph) (gs : List Glyph) :
    ((g :: gs).drop n).length < (g :: gs).length := by
  simp only [length_drop, length_cons]
  omega

theorem readSigil_length (gs : List Glyph) : (readSigil gs).2.length < gs.length ∨ readSigil gs = (.none, gs) := by
  cases gs with
  | nil => exact .inr (by simp [readSigil, sigilOf])
  | cons g gs =>
    simp only [readSigil]
    cases sigilOf (raw 2 (g :: gs)) with
    | none => exact .inr rfl
    | _ => exact .inl (length_drop_lt (by decide) g gs)

theorem readDelimiter_length (gs : List Glyph) :
    (readDelimiter gs).2.length < gs.length ∨ readDelimiter gs = (.none, gs) := by
  cases gs with
  | nil => exact .inr (by simp [readDelimiter, delimiterOf])
  | cons g gs =>
    simp only [readDelimiter]
    cases delimiterOf (raw 2 (g :: gs)) with
    | none => exact .inr rfl
    | _ => exact .inl (length_drop_lt (by decide) g gs)

theorem length_readName_lt {stop : Position} {gs : List Glyph} (hname : (readName stop gs).value.isSome = true) :
    (readName stop gs).rest.length < gs.length := by
  cases gs with
  | nil => simp [readName] at hname
  | cons g rest =>
    simp only [readName] at hname ⊢
    split at hname
    · simp at hname
    · next hcomment =>
      rw [if_neg hcomment]
      split at hname
      · next hquote =>
        rw [if_pos hquote]
        exact Nat.lt_succ_of_le (readQuotedText_suffix _ _ _ rest).length_le
      · next hquote =>
        rw [if_neg hquote]
        simp only [readBareName] at hname ⊢
        split at hname
        · simp at hname
        · next htext =>
          rw [if_neg htext]
          have happend := congrArg List.length (breakAt_append endsName (g :: rest))
          have htaken : (breakAt endsName (g :: rest)).1 ≠ [] := by
            intro hnil
            simp [hnil, chars, Text.trimEnd] at htext
          have := length_pos_iff.mpr htaken
          simp only [length_append] at happend
          change (breakAt endsName (g :: rest)).2.length < (g :: rest).length
          omega

theorem readHead_suffix (stop : Position) (gs : List Glyph) : (readHead stop gs).rest <:+ gs :=
  (readDelimiter_suffix _).trans ((dropBlanks_suffix _).trans ((readName_suffix stop _).trans (readSigil_suffix gs)))

theorem length_readHead_lt {stop : Position} {gs : List Glyph} (hfound : isVacant (readHead stop gs).value = false) :
    (readHead stop gs).rest.length < gs.length := by
  have hsigil := (readSigil_suffix gs).length_le
  have hname := (readName_suffix stop (readSigil gs).2).length_le
  have hblanks := (dropBlanks_suffix (readName stop (readSigil gs).2).rest).length_le
  have hdelimiter := (readDelimiter_suffix (dropBlanks (readName stop (readSigil gs).2).rest)).length_le
  simp only [isVacant, readHead, Bool.and_eq_false_iff] at hfound ⊢
  rcases hfound with (hfound | hfound) | hfound
  · rcases readSigil_length gs with hlt | hnone
    · omega
    · simp [hnone] at hfound
  · have hsome : (readName stop (readSigil gs).2).value.isSome = true := by
      cases hvalue : (readName stop (readSigil gs).2).value <;> simp_all
    have := length_readName_lt hsome
    omega
  · rcases readDelimiter_length (dropBlanks (readName stop (readSigil gs).2).rest) with hlt | hnone
    · omega
    · simp [hnone] at hfound

theorem length_readComments_lt (stop : Position) {gs : List Glyph} (hcomment : atComment gs = true) :
    (readComments stop gs).2.length < gs.length := by
  rw [readComments, dif_pos hcomment]
  have hrest := (readComments_suffix stop (dropBlanks (readComment stop gs).2)).length_le
  have hblanks := (dropBlanks_suffix (readComment stop gs).2).length_le
  have hfirst := length_readComment_lt stop hcomment
  exact Nat.lt_of_le_of_lt (Nat.le_trans hrest hblanks) hfirst

/-- The items of a line and what comes after them. `groups` are the places where
    groups were opened, innermost first; `complete` says that the last pair has
    all that belongs to it. What follows an unexpected character is passed over. -/
def readItems (stop : Position) (margin : Margin) (groups : List Position) (complete : Bool)
    (gs : List Glyph) : List Item × List Glyph :=
  match hblanks : dropBlanks gs with
  | [] => (unclosed groups, [])
  | g :: rest =>
    have hle : (g :: rest).length ≤ gs.length := hblanks ▸ (dropBlanks_suffix gs).length_le
    if g.isLineBreak then (unclosed groups, g :: rest)
    else if hcomment : atComment (g :: rest) then
      have := length_readComments_lt stop hcomment
      let found := readComments stop (g :: rest)
      let more := readItems stop margin groups complete found.2
      (found.1.map .comment ++ more.1, more.2)
    else if g.char = ',' then
      let more := readItems stop margin groups false rest
      (.separator :: more.1, more.2)
    else if g.char = ')' && !groups.isEmpty then
      let more := readItems stop margin groups.tail true rest
      (.closeGroup :: more.1, more.2)
    else if g.char = '(' && !complete then
      let more := readItems stop margin (g.position :: groups) false rest
      (.openGroup :: more.1, more.2)
    else if complete || g.char = ')' || g.char = '(' then
      (unexpected g.shown g.position :: unclosed groups, dropLine rest)
    else if hfound : isVacant (readHead stop (g :: rest)).value then
      let after := (readHead stop (g :: rest)).rest
      (unexpected (after.head?.map (·.shown)) g.position :: unclosed groups, dropLine after)
    else
      have := length_readHead_lt (Bool.eq_false_iff.mpr hfound)
      have := (readBody_suffix stop margin (!groups.isEmpty) (readHead stop (g :: rest)).value
        (readHead stop (g :: rest)).rest).length_le
      let head := readHead stop (g :: rest)
      let pair := readBody stop margin (!groups.isEmpty) head.value head.rest
      let more := readItems stop margin groups (isComplete pair.1) pair.2
      (head.notes.map .note ++ .pair pair.1 :: more.1, more.2)
termination_by gs.length
decreasing_by all_goals simp only [length_cons] at *; omega

theorem readItems_suffix (stop : Position) (margin : Margin) (groups : List Position)
    (complete : Bool) (gs : List Glyph) : (readItems stop margin groups complete gs).2 <:+ gs := by
  fun_induction readItems stop margin groups complete gs with
  | case1 _ _ _ hblanks => exact hblanks ▸ dropBlanks_suffix _
  | case2 _ _ _ g rest hblanks => exact hblanks ▸ dropBlanks_suffix _
  | case3 _ _ gs g rest hblanks _ _ _ _ found more ih =>
    exact ih.trans ((readComments_suffix stop _).trans (hblanks ▸ dropBlanks_suffix gs))
  | case4 _ _ gs g rest hblanks _ _ _ _ more ih =>
    exact ih.trans ((suffix_cons g rest).trans (hblanks ▸ dropBlanks_suffix gs))
  | case5 _ _ gs g rest hblanks _ _ _ _ _ more ih =>
    exact ih.trans ((suffix_cons g rest).trans (hblanks ▸ dropBlanks_suffix gs))
  | case6 _ _ gs g rest hblanks _ _ _ _ _ _ more ih =>
    exact ih.trans ((suffix_cons g rest).trans (hblanks ▸ dropBlanks_suffix gs))
  | case7 _ _ gs g rest hblanks =>
    exact (dropLine_suffix rest).trans ((suffix_cons g rest).trans (hblanks ▸ dropBlanks_suffix gs))
  | case8 _ _ gs g rest hblanks =>
    exact (dropLine_suffix _).trans ((readHead_suffix stop _).trans (hblanks ▸ dropBlanks_suffix gs))
  | case9 _ _ gs g rest hblanks _ _ _ _ _ _ _ _ _ _ head pair more ih =>
    exact ih.trans ((readBody_suffix stop margin _ _ _).trans
      ((readHead_suffix stop _).trans (hblanks ▸ dropBlanks_suffix gs)))

/-- What one line gives, and where that leaves the reader. -/
structure LineRead where
  lines : List Line
  layout : Layout
  rest : List Glyph

/-- Reads one line together with all further lines that its values and comments
    go on on. -/
def readLine (stop : Position) (layout : Layout) (gs : List Glyph) : LineRead :=
  let indent := Indent.of gs
  let body := dropBlanks gs
  let (found, after) := readComments stop body
  let leading :=
    if found.isEmpty then [] else [.comments (layout.commentDepth indent.width) found]
  if atLineEnd after then ⟨leading, layout, dropLineBreak after⟩
  else
    match layout.measure indent ⟨here stop gs, here stop body⟩ with
    | .error note => ⟨leading ++ [.rejected note], layout, dropLineBreak (dropLine after)⟩
    | .ok (depth, unit) =>
      let (items, rest) := readItems stop ⟨unit, indent.width⟩ [] false after
      let line := .content depth ⟨here stop gs, here stop after⟩ items
      let openBlocks := if items.any Item.isPair then depth + 1 else depth
      ⟨leading ++ [line], ⟨unit, openBlocks⟩, dropLineBreak (dropLine rest)⟩

theorem atLineEnd_dropLine (gs : List Glyph) : atLineEnd (dropLine gs) := by
  induction gs with
  | nil => rfl
  | cons g gs ih => cases hg : g.isLineBreak <;> simp_all [dropLine, atLineEnd]

section

variable (stop : Position) (layout : Layout) (gs : List Glyph)

/-- A line ends at the end of the text or at a line break, and the next one begins behind that. -/
theorem exists_readLine_rest :
    ∃ behind, behind <:+ gs ∧ atLineEnd behind ∧ (readLine stop layout gs).rest = dropLineBreak behind := by
  have hafter := (readComments_suffix stop (dropBlanks gs)).trans (dropBlanks_suffix gs)
  simp only [readLine]
  split
  · exact ⟨_, hafter, ‹_›, rfl⟩
  · split
    · exact ⟨_, (dropLine_suffix _).trans hafter, atLineEnd_dropLine _, rfl⟩
    · exact ⟨_, (dropLine_suffix _).trans ((readItems_suffix ..).trans hafter), atLineEnd_dropLine _, rfl⟩

theorem readLine_suffix : (readLine stop layout gs).rest <:+ gs := by
  obtain ⟨behind, hbehind, -, hrest⟩ := exists_readLine_rest stop layout gs
  rw [hrest]
  exact (dropLineBreak_suffix behind).trans hbehind

theorem length_readLine_lt {gs : List Glyph} (hgs : gs ≠ []) : (readLine stop layout gs).rest.length < gs.length := by
  obtain ⟨behind, hbehind, hend, hrest⟩ := exists_readLine_rest stop layout gs
  rw [hrest]
  cases behind with
  | nil => exact length_pos_iff.mpr hgs
  | cons g behind =>
    have hbreak : g.isLineBreak := hend
    rw [dropLineBreak, if_pos hbreak]
    exact hbehind.length_le

end

def readLines (stop : Position) (layout : Layout) (gs : List Glyph) : List Line :=
  if hgs : gs = [] then []
  else
    have := length_readLine_lt stop layout hgs
    let line := readLine stop layout gs
    line.lines ++ readLines stop line.layout line.rest
termination_by gs.length

def ofText (text : List Char) : List Line := readLines (Cursor.ofList text).stop .initial (Cursor.ofList text).ahead

end PairMarkup.Line
