import PairMarkup.Line.Reader
import PairMarkup.Proofs.Stream

namespace PairMarkup

open List

namespace Glyph

variable {g : Glyph} {gs : List Glyph} {n : Nat} {x : Char} (p : Position)

theorem isLineBreak_char (g : Glyph) : g.isLineBreak = Text.isLineBreak g.char := by
  rcases g.shown_eq with heq | ⟨hshown, hchar⟩
  · rw [isLineBreak, heq]
  · rw [isLineBreak, hshown, hchar]

/-- What is seen is what is taken, unless that is a line break. -/
theorem shown_of_not_isLineBreak (h : g.isLineBreak = false) : g.shown = g.char :=
  g.shown_eq.resolve_right fun hbreak => by simp [isLineBreak, hbreak.1] at h

theorem shown_eq_iff (hx : Text.isLineBreak x = false) : g.shown = x ↔ g.char = x := by
  rcases g.shown_eq with heq | ⟨hshown, hchar⟩
  · rw [heq]
  · constructor
    · rintro rfl
      rw [hshown] at hx
      cases hx
    · rintro rfl
      rw [hchar] at hx
      cases hx

theorem isBlank_char (g : Glyph) : g.isBlank = Text.isBlank g.char := by
  have hspace := shown_eq_iff (g := g) (x := ' ') rfl
  have htab := shown_eq_iff (g := g) (x := '\t') rfl
  rw [Bool.eq_iff_iff]
  simp only [isBlank, Text.isBlank, Bool.or_eq_true, beq_iff_eq, hspace, htab]

theorem raw_cons (h : g.isLineBreak = false) : raw (n + 1) (g :: gs) = g.char :: raw n gs := by
  have hshown := shown_of_not_isLineBreak h
  have hreturn : g.char ≠ '\r' := fun hchar => by simp [isLineBreak, hshown, hchar, Text.isLineBreak] at h
  simp [raw, written, hshown, hreturn]

theorem exists_written (g : Glyph) : ∃ more, g.written = g.shown :: more := by
  unfold written
  split
  · rename_i h
    simp only [Bool.and_eq_true, decide_eq_true_eq] at h
    exact ⟨['\n'], by rw [h.1]⟩
  · exact ⟨[], rfl⟩

theorem exists_raw_cons (g : Glyph) (gs : List Glyph) (n : Nat) : ∃ more, raw (n + 1) (g :: gs) = g.shown :: more := by
  obtain ⟨more, hmore⟩ := exists_written g
  exact ⟨_, by rw [raw, take_succ_cons, flatMap_cons, hmore, cons_append, take_succ_cons]⟩

theorem upToBreak_raw (n : Nat) (gs : List Glyph) :
    Text.upToBreak (raw n gs) = Text.upToBreak (chars (gs.take n)) := by
  induction n generalizing gs with
  | zero => simp [raw, chars]
  | succ n ih =>
    cases gs with
    | nil => simp [chars]
    | cons g gs =>
      have hchar := isLineBreak_char g
      simp only [take_succ_cons, chars, map_cons, Text.upToBreak_cons, ← hchar]
      cases hg : g.isLineBreak with
      | false => rw [raw_cons hg, Text.upToBreak_cons, ← hchar, hg, ih, chars]
      | true =>
        obtain ⟨more, hraw⟩ := exists_raw_cons g gs n
        rw [hraw, Text.upToBreak_cons, ← isLineBreak, hg]
        rfl

/-- Who looks no further than the line sees the same in what is written and in what is taken. -/
theorem look_raw {α : Type} {look : List Char → α} (hlook : ∀ text, look (Text.upToBreak text) = look text) (n : Nat)
    (gs : List Glyph) : look (raw n gs) = look (chars (gs.take n)) := by
  rw [← hlook, upToBreak_raw, hlook]

theorem raw_eq_take (n : Nat) (gs : List Glyph) : raw n gs = (gs.flatMap written).take n := by
  induction n generalizing gs with
  | zero => simp [raw]
  | succ n ih =>
    cases gs with
    | nil => simp
    | cons g gs =>
      obtain ⟨more, hmore⟩ := exists_written g
      have hrest := congrArg (take (n - more.length)) (ih gs)
      unfold raw at hrest ⊢
      simp only [take_succ_cons, flatMap_cons, hmore, cons_append, take_append]
      simpa [take_take] using hrest

theorem flatMap_written_place (text : List Char) : (place p text).flatMap written = text := by
  fun_induction place p text with
  | case1 p rest ih => simp [returned, written, ih]
  | case2 p c rest hpair ih =>
    have hwritten : (plain c p).written = [c] := if_neg fun h => by
      rw [Bool.and_eq_true] at h
      exact absurd ((of_decide_eq_true h.1).symm.trans (of_decide_eq_true h.2)) (by decide)
    rw [flatMap_cons, hwritten, ih, singleton_append]
  | case3 => rfl

theorem length_takeWhile_isBlank_place (text : List Char) :
    ((place p text).takeWhile isBlank).length = (text.takeWhile Text.isBlank).length := by
  fun_induction place p text with
  | case1 p rest ih => rfl
  | case2 p c rest hpair ih =>
    have hc : (plain c p).isBlank = Text.isBlank c := rfl
    cases hblank : Text.isBlank c <;> simp [hc, hblank, ih]
  | case3 => rfl

theorem atLineEnd_dropBlanks_place (text : List Char) :
    atLineEnd (dropBlanks (place p text)) = (text.dropWhile Text.isBlank).head?.all Text.isLineBreak := by
  fun_induction place p text with
  | case1 p rest ih => rfl
  | case2 p c rest hpair ih =>
    have hc : (plain c p).isBlank = Text.isBlank c := rfl
    cases hblank : Text.isBlank c with
    | true => simpa [dropBlanks, dropWhile_cons, hc, hblank] using ih
    | false =>
      simp only [dropBlanks, dropWhile_cons, hc, hblank, Bool.false_eq_true, if_false]
      rfl
  | case3 => rfl

end Glyph

namespace Line

open Glyph

variable {c : Char} (gs : List Glyph) (text : List Char)

theorem isReferenceChar_of_isLineBreak (h : Text.isLineBreak c) : isReferenceChar c = false := by
  simp only [Text.isLineBreak, Bool.or_eq_true, beq_iff_eq] at h
  rcases h with rfl | rfl <;> decide

theorem hexDigit?_of_isLineBreak (h : Text.isLineBreak c) : Text.hexDigit? c = none := by
  simp only [Text.isLineBreak, Bool.or_eq_true, beq_iff_eq] at h
  rcases h with rfl | rfl <;> decide

theorem isCommentMark_upToBreak : isCommentMark (Text.upToBreak text) = isCommentMark text := by
  rcases text with _ | ⟨a, _ | ⟨b, _ | ⟨c, text⟩⟩⟩ <;> simp only [Text.upToBreak_nil, Text.upToBreak_cons]
  all_goals repeat' split
  all_goals grind [isCommentMark, Text.isLineBreak]

theorem isBlockEnd_upToBreak : isBlockEnd (Text.upToBreak text) = isBlockEnd text := by
  rcases text with _ | ⟨a, _ | ⟨b, _ | ⟨c, text⟩⟩⟩ <;> simp only [Text.upToBreak_nil, Text.upToBreak_cons]
  all_goals repeat' split
  all_goals grind [isBlockEnd, Text.isLineBreak]

theorem isReferenceEnd_upToBreak : isReferenceEnd (Text.upToBreak text) = isReferenceEnd text := by
  rcases text with _ | ⟨a, _ | ⟨b, text⟩⟩ <;> simp only [Text.upToBreak_nil, Text.upToBreak_cons]
  all_goals repeat' split
  all_goals grind [isReferenceEnd, isReferenceChar_of_isLineBreak]

theorem isReferenceStart_upToBreak : isReferenceStart (Text.upToBreak text) = isReferenceStart text := by
  rcases text with _ | ⟨a, _ | ⟨b, text⟩⟩ <;> simp only [Text.upToBreak_nil, Text.upToBreak_cons]
  all_goals repeat' split
  all_goals grind [isReferenceStart, Text.isLineBreak, isReferenceChar_of_isLineBreak]

theorem hexUnit?_upToBreak : hexUnit? (Text.upToBreak text) = hexUnit? text := by
  rcases text with _ | ⟨a, _ | ⟨b, _ | ⟨c, _ | ⟨d, text⟩⟩⟩⟩ <;> simp only [Text.upToBreak_nil, Text.upToBreak_cons]
  all_goals repeat' split
  all_goals simp_all [hexUnit?, hexDigit?_of_isLineBreak]

theorem lowSurrogate?_upToBreak : lowSurrogate? (Text.upToBreak text) = lowSurrogate? text := by
  rcases text with _ | ⟨a, _ | ⟨b, text⟩⟩ <;> simp only [Text.upToBreak_nil, Text.upToBreak_cons]
  all_goals repeat' split
  all_goals grind [lowSurrogate?, Text.isLineBreak, hexUnit?_upToBreak]

theorem sigilOf_upToBreak : sigilOf (Text.upToBreak text) = sigilOf text := by
  rcases text with _ | ⟨a, _ | ⟨b, text⟩⟩ <;> simp only [Text.upToBreak_nil, Text.upToBreak_cons]
  all_goals repeat' split
  all_goals grind [sigilOf, Text.isLineBreak]

theorem delimiterOf_upToBreak : delimiterOf (Text.upToBreak text) = delimiterOf text := by
  rcases text with _ | ⟨a, _ | ⟨b, text⟩⟩ <;> simp only [Text.upToBreak_nil, Text.upToBreak_cons]
  all_goals repeat' split
  all_goals grind [delimiterOf, Text.isLineBreak]

theorem atComment_eq : atComment gs = isCommentMark (chars (gs.take 3)) := look_raw isCommentMark_upToBreak 3 gs

theorem codeUnit?_eq : codeUnit? gs = hexUnit? (chars (gs.take 4)) := look_raw hexUnit?_upToBreak 4 gs

theorem escapedLowSurrogate?_eq {a b : Glyph} (ha : a.char = '\\') (hb : b.char = 'u') :
    escapedLowSurrogate? (a :: b :: gs) = (codeUnit? gs).filter Text.Utf16.isLowSurrogate := by
  have hbreak : a.isLineBreak = false ∧ b.isLineBreak = false := by simp [isLineBreak_char, ha, hb, Text.isLineBreak]
  simp [escapedLowSurrogate?, raw_cons hbreak.1, raw_cons hbreak.2, lowSurrogate?, ha, hb, codeUnit?]

theorem referenceInText_of_ne {g : Glyph} (hdollar : g.char ≠ '$') (hpercent : g.char ≠ '%') :
    referenceInText (g :: gs) = false := by
  rw [referenceInText, look_raw isReferenceStart_upToBreak]
  cases gs <;> simp [chars, isReferenceStart, hdollar, hpercent]

theorem readSigil_eq {sigil : Sigil} (h : sigilOf (chars (gs.take 2)) = sigil) :
    readSigil gs = (sigil, gs.drop sigil.width) := by
  simp only [readSigil, look_raw sigilOf_upToBreak, h]

theorem readDelimiter_eq {delimiter : Delimiter} (h : delimiterOf (chars (gs.take 2)) = delimiter) :
    readDelimiter gs = (delimiter, gs.drop delimiter.width) := by
  simp only [readDelimiter, look_raw delimiterOf_upToBreak, h]

theorem ofText_eq : ofText text = readLines (placeAfter .start text) .initial (place .start text) := rfl

end Line

namespace Cursor

open Glyph

variable (c : Cursor)

theorem raw_ahead (n : Nat) : raw n c.ahead = c.rest.take n := by
  rw [raw_eq_take, ahead, flatMap_written_place]

theorem lookAt?_eq {i n : Nat} (h : i < n) : c.lookAt? (.ofNat (i + 1)) = (raw n c.ahead)[i]? := by
  rw [raw_ahead, getElem?_take_of_lt h]
  rfl

theorem peek?_eq : c.peek? = c.ahead.head?.map (·.shown) := by
  unfold peek? ahead
  fun_cases place c.position c.rest <;> simp_all [returned, plain]

theorem length_ahead_lt {c next : Cursor} {x : Char} (h : c.consume? = some (x, next)) :
    next.ahead.length < c.ahead.length := by
  obtain ⟨⟨g, hahead, -⟩, -⟩ := consume_spec h
  rw [hahead, length_cons]
  exact Nat.lt_succ_self _

/-- Takes characters up to the first place where `stops` holds. -/
def takeUntil (stops : Cursor → Bool) (c : Cursor) : List Char × Cursor :=
  if stops c then ([], c)
  else
    match h : c.consume? with
    | none => ([], c)
    | some (x, next) =>
      have := length_ahead_lt h
      let (taken, last) := takeUntil stops next
      (x :: taken, last)
termination_by c.ahead.length

/-- Where a test of the stream agrees with one of the glyphs ahead, both stop at the same place. -/
theorem takeUntil_eq {stops : Cursor → Bool} {stops' : List Glyph → Bool} (hstops : ∀ c, stops c = stops' c.ahead) :
    (c.takeUntil stops).1 = chars (breakAt stops' c.ahead).1 ∧
      (c.takeUntil stops).2.ahead = (breakAt stops' c.ahead).2 := by
  fun_induction takeUntil stops c with
  | case1 c hstop =>
    rw [hstops] at hstop
    cases hahead : c.ahead with
    | nil => exact ⟨rfl, rfl⟩
    | cons g gs =>
      rw [hahead] at hstop
      rw [breakAt, if_pos hstop]
      exact ⟨rfl, rfl⟩
  | case2 c hstop hnone =>
    cases hahead : c.ahead with
    | nil => exact ⟨rfl, rfl⟩
    | cons g gs =>
      obtain ⟨x, next, hsome, -⟩ := exists_consume hahead
      rw [hnone] at hsome
      cases hsome
  | case3 c hstop x next hsome _ taken last htake ih =>
    obtain ⟨⟨g, hahead, hchar, -⟩, -⟩ := consume_spec hsome
    rw [hstops, hahead] at hstop
    rw [htake] at ih
    rw [hahead, breakAt, if_neg hstop, ← hchar]
    exact ⟨congrArg (g.char :: ·) ih.1, ih.2⟩

theorem atLineEnd_ahead : Glyph.atLineEnd c.ahead = c.peek?.all Text.isLineBreak := by
  rw [peek?_eq]
  cases c.ahead <;> rfl

/-- The width of the blanks that the line behind the line break here begins with, and
    whether nothing else is on it. -/
def nextLine? (c : Cursor) : Option (Nat × Bool) :=
  let k := if c.lookAt? 1 = some '\r' then 1 else 0
  let k := if c.lookAt? (.ofNat (k + 1)) = some '\n' then k + 1 else k
  if k = 0 then none
  else
    let line := c.rest.drop k
    some ((line.takeWhile Text.isBlank).length, (line.dropWhile Text.isBlank).head?.all Text.isLineBreak)

/-- A carriage return is passed over with or without a line feed. -/
theorem nextLine?_eq : c.nextLine? = (c.ahead.head?.filter isLineBreak).map fun _ =>
    ((Line.Indent.of c.ahead.tail).width, Glyph.atLineEnd (dropBlanks c.ahead.tail)) := by
  obtain ⟨before, rest, p⟩ := c
  unfold ahead
  dsimp only
  fun_cases place p rest with
  | case1 p rest =>
    simp [nextLine?, lookAt?, returned, isLineBreak, Option.filter, Text.isLineBreak, Line.Indent.of,
      length_takeWhile_isBlank_place, atLineEnd_dropBlanks_place]
  | case2 p x rest hpair =>
    have hfeed : x = '\r' → rest[0]? ≠ some '\n' := fun hx h => by
      obtain ⟨more, hmore⟩ := head?_eq_some_iff.mp (head?_eq_getElem?.trans h)
      exact hpair more hx hmore
    by_cases hreturn : x = '\r' <;> by_cases hbreak : x = '\n'
    all_goals simp_all [nextLine?, lookAt?, plain, isLineBreak, Option.filter, Text.isLineBreak, Line.Indent.of,
      length_takeWhile_isBlank_place, atLineEnd_dropBlanks_place]
  | case3 => rfl

/-- A value goes on on the next line if the stream shows one that is not blank and is indented deeper. -/
theorem continues_ahead {g : Glyph} {next : List Glyph} (h : c.ahead = g :: next) (margin : Line.Margin) :
    (g.isLineBreak && margin.continues next) =
      c.nextLine?.any fun line => !line.2 && decide (margin.width < line.1) := by
  rw [nextLine?_eq, h]
  cases hg : g.isLineBreak <;> simp [Option.filter, hg, Line.Margin.continues]

end Cursor

end PairMarkup
