import PairMarkup.Proofs.Stream

namespace PairMarkup

open List Position

namespace Text

/-- What follows the last line feed of a text. -/
def lastLine (text : List Char) : List Char := (text.reverse.takeWhile (· ≠ '\n')).reverse

/-- The text with every carriage return that a line feed follows left out. -/
def joinBreaks : List Char → List Char
  | '\r' :: '\n' :: rest => '\n' :: joinBreaks rest
  | c :: rest => c :: joinBreaks rest
  | [] => []

theorem lastLine_concat (text : List Char) (c : Char) :
    lastLine (text ++ [c]) = if c = '\n' then [] else lastLine text ++ [c] := by
  simp only [lastLine, reverse_append, reverse_singleton, singleton_append]
  split
  · rename_i hc
    simp [hc]
  · rename_i hc
    simp [hc]

end Text

namespace Position

/-- The place behind a text that begins at the start. -/
def behind (text : List Char) : Position where
  line := 1 + text.count '\n'
  column := 1 + (Text.lastLine text).countP (· ≠ '\r')
  offset := text.length

theorem behind_concat (text : List Char) (c : Char) : behind (text ++ [c]) = (behind text).after c := by
  simp only [behind, Text.lastLine_concat, count_append, length_append, length_singleton]
  unfold after
  split
  · rename_i hfeed
    subst hfeed
    rfl
  · rename_i hfeed
    split
    · rename_i hreturn
      subst hreturn
      simp [countP_append]
    · rename_i hreturn
      simp [countP_append, hfeed, hreturn]
      omega

end Position

namespace Cursor

/-- Characters are taken from the start of a text, one after the other. -/
inductive Taken (text : List Char) : List Char → Cursor → Prop
  | start : Taken text [] (ofList text)
  | next {xs : List Char} {c d : Cursor} {x : Char} : Taken text xs c → c.consume? = some (x, d) →
      Taken text (xs ++ [x]) d

/-- The stream over `text` after the characters `xs`: all that it knows is told by what lies behind. -/
structure Tracks (text xs : List Char) (c : Cursor) : Prop where
  text_eq : c.text = text
  position_eq : c.position = .behind c.before.reverse
  joined_eq : Text.joinBreaks text = xs ++ Text.joinBreaks c.rest
  /-- The place is not inside of a line break. -/
  whole : c.before.head? = some '\r' → c.rest.head? ≠ some '\n'
  last_eq : c.before.head? = xs.getLast?

variable {text xs : List Char} {c d : Cursor} {x : Char}

/-- One character more: either a carriage return goes together with the line feed behind it, or nothing is joined. -/
theorem Tracks.consume (h : Tracks text xs c) (hconsume : c.consume? = some (x, d)) : Tracks text (xs ++ [x]) d := by
  have htext := h.text_eq
  have hjoined := h.joined_eq
  unfold consume? at hconsume
  split at hconsume
  · rename_i rest hrest
    cases hconsume
    refine ⟨?_, ?_, ?_, fun hreturn => absurd hreturn (by simp), by simp⟩
    · simpa [Cursor.text, hrest] using htext
    · rw [reverse_cons, reverse_cons, behind_concat, behind_concat, h.position_eq]
    · rw [hjoined, hrest, Text.joinBreaks, append_assoc]
      rfl
  · rename_i y rest hpair hrest
    cases hconsume
    refine ⟨?_, ?_, ?_, fun hreturn hfeed => ?_, by simp⟩
    · simpa [Cursor.text, hrest] using htext
    · rw [reverse_cons, behind_concat, h.position_eq]
    · rw [hjoined, hrest, Text.joinBreaks, append_assoc]
      · rfl
      · exact fun more => hpair more
    · obtain ⟨more, rfl⟩ := head?_eq_some_iff.mp hfeed
      exact hpair more (Option.some.inj hreturn) rfl
  · cases hconsume

theorem Taken.tracks (h : Taken text xs c) : Tracks text xs c := by
  induction h with
  | start => exact ⟨rfl, rfl, rfl, by simp [ofList], rfl⟩
  | next _ hconsume ih => exact ih.consume hconsume

theorem consume?_eq_none_iff : c.consume? = none ↔ c.isAtEnd := by
  unfold consume? isAtEnd
  split
  · rename_i hrest
    simp [hrest]
  · rename_i hrest
    simp [hrest]
  · rename_i hrest
    simp [hrest]

theorem Taken.exists_at_end (h : Taken text xs c) : ∃ ys d, Taken text ys d ∧ d.isAtEnd := by
  induction hlength : c.ahead.length generalizing xs c with
  | zero => exact ⟨xs, c, h, ahead_eq_nil_iff.mp (length_eq_zero_iff.mp hlength)⟩
  | succ k ih =>
    obtain ⟨g, gs, hahead⟩ := exists_cons_of_length_eq_add_one hlength
    obtain ⟨x, next, hconsume, hnext⟩ := exists_consume hahead
    rw [hahead, length_cons] at hlength
    exact ih (h.next hconsume) (by rw [hnext]; omega)

/-- After any number of characters, line and column are those counted over the text up to the offset, the text is not
    cut there inside of a line break, and the character behind is the last one taken. The characters of a text can be
    taken up to its end, and are the text with its line breaks joined. At the end nothing is taken or changed. -/
theorem positions_counted (text : List Char) : (∀ xs c, Taken text xs c →
      let i := c.position.offset
      c.text = text ∧ c.before.reverse = text.take i ∧ c.rest = text.drop i ∧
      c.position.line = 1 + (text.take i).count '\n' ∧
      c.position.column = 1 + (Text.lastLine (text.take i)).countP (· ≠ '\r') ∧
      ((text.take i).getLast? = some '\r' → (text.drop i).head? ≠ some '\n') ∧
      (∀ x ∈ xs.getLast?, c.lookAt? (-1) = some x) ∧
      (c.isAtEnd = true → i = text.length ∧ xs = Text.joinBreaks text) ∧
      (c.consume? = none ↔ c.isAtEnd = true) ∧ (c.isAtEnd = true → ∀ m, c.skip m = (0, c))) ∧
    ∃ xs c, Taken text xs c ∧ c.isAtEnd = true := by
  refine ⟨fun xs c htaken => ?_, Taken.start.exists_at_end⟩
  have htracks := htaken.tracks
  have hoffset : c.position.offset = c.before.reverse.length := congrArg Position.offset htracks.position_eq
  obtain ⟨hbefore, hrest⟩ : c.before.reverse = text.take c.position.offset ∧ c.rest = text.drop c.position.offset := by
    rw [hoffset, ← htracks.text_eq, Cursor.text, take_left, drop_left]
    exact ⟨rfl, rfl⟩
  refine ⟨htracks.text_eq, hbefore, hrest, ?_, ?_, ?_, fun x hx => ?_, fun hat => ?_, consume?_eq_none_iff,
    fun hat m => ?_⟩
  · rw [← hbefore, htracks.position_eq]
    rfl
  · rw [← hbefore, htracks.position_eq]
    rfl
  · rw [← hbefore, ← hrest, getLast?_reverse]
    exact htracks.whole
  · have hlook : c.lookAt? (-1) = c.before[0]? := rfl
    rw [hlook, ← head?_eq_getElem?, htracks.last_eq]
    exact hx
  · have hnil : c.rest = [] := List.isEmpty_iff.mp hat
    rw [hoffset, htracks.joined_eq, ← htracks.text_eq, Cursor.text, hnil, append_nil]
    exact ⟨rfl, (append_nil xs).symm⟩
  · cases m with
    | zero => rfl
    | succ m => rw [skip, consume?_eq_none_iff.mpr hat]

/-- A carriage return by itself, one before a line break, and one behind it on the next line. -/
theorem positions_counted_mixed :
    Taken "a\r\r\nb\rc".toList "a\r\nb\rc".toList ⟨"c\rb\n\r\ra".toList, [], ⟨2, 3, 7⟩⟩ ∧
      Text.joinBreaks "a\r\r\nb\rc".toList = "a\r\nb\rc".toList ∧
      1 + (Text.lastLine ("a\r\r\nb\rc".toList.take 7)).countP (· ≠ '\r') = 3 := by
  have htaken : Taken "a\r\r\nb\rc".toList "a\r\nb\rc".toList ⟨"c\rb\n\r\ra".toList, [], ⟨2, 3, 7⟩⟩ :=
    .next (.next (.next (.next (.next (.next .start rfl) rfl) rfl) rfl) rfl) rfl
  obtain ⟨-, -, -, -, hcolumn, -, -, hend, -⟩ := (positions_counted _).1 _ _ htaken
  exact ⟨htaken, (hend rfl).2.symm, hcolumn.symm⟩

end Cursor

end PairMarkup
