import PairMarkup.Proofs.Lookahead

namespace PairMarkup

open List

theorem Glyph.place_cons_of_ne {c : Char} (hc : c ≠ '\r') (p : Position) (text : List Char) :
    place p (c :: text) = plain c p :: place (p.after c) text := by
  rw [place]
  rintro rest rfl -
  exact hc rfl

namespace Line

open Glyph

variable (stop : Position) (layout : Layout) (margin : Margin) (inGroup : Bool) (gs : List Glyph)

theorem readBody_of_found {stop : Position} {margin : Margin} {inGroup : Bool} {gs : List Glyph} {found : Read Value}
    (head : Head) (h : readAnnounced stop margin inGroup gs head.delimiter = some found) :
    (readBody stop margin inGroup head gs).1.value = some found.value ∧
      (readBody stop margin inGroup head gs).1.notes = found.notes ∧
      (readBody stop margin inGroup head gs).2 = found.rest :=
  ⟨congrArg (Option.map Read.value) h, congrArg (Option.elim · [] Read.notes) h,
    congrArg (Option.elim · gs Read.rest) h⟩

theorem readItems_of_nil {gs : List Glyph} (hblanks : dropBlanks gs = []) (stop : Position)
    (margin : Margin) (groups : List Position) (complete : Bool) :
    readItems stop margin groups complete gs = (unclosed groups, []) := by
  rw [readItems]
  split
  · rfl
  · rename_i heq
    rw [hblanks] at heq
    cases heq

/-- What is read next depends on the first character that is no blank. -/
theorem readItems_of_cons {gs rest : List Glyph} {g : Glyph} (hblanks : dropBlanks gs = g :: rest)
    (stop : Position) (margin : Margin) (groups : List Position) (complete : Bool) :
    readItems stop margin groups complete gs =
      if g.isLineBreak then (unclosed groups, g :: rest)
      else if atComment (g :: rest) then
        let found := readComments stop (g :: rest)
        let more := readItems stop margin groups complete found.2
        (found.1.map .comment ++ more.1, more.2)
      else if g.char = ',' then
        let more := readItems stop margin groups false rest
        (.separator :: more.1, more.2)
      else if g.char = ')' && !groups.isEmpty then
        let more := readItems stop margin groups.tail true rest
        (.closeGroup :: more.1, more.2)
      else if g.char = '(' && !complete then
        let more := readItems stop margin (g.position :: groups) false rest
        (.openGroup :: more.1, more.2)
      else if complete || g.char = ')' || g.char = '(' then
        (unexpected g.shown g.position :: unclosed groups, dropLine rest)
      else if isVacant (readHead stop (g :: rest)).value then
        let after := (readHead stop (g :: rest)).rest
        (unexpected (after.head?.map (·.shown)) g.position :: unclosed groups, dropLine after)
      else
        let head := readHead stop (g :: rest)
        let pair := readBody stop margin (!groups.isEmpty) head.value head.rest
        let more := readItems stop margin groups (isComplete pair.1) pair.2
        (head.notes.map .note ++ .pair pair.1 :: more.1, more.2) := by
  rw [readItems]
  split
  · rename_i heq
    rw [hblanks] at heq
    cases heq
  · rename_i heq
    rw [hblanks] at heq
    cases heq
    simp only [dite_eq_ite]

/-- All that reading a line comes to: comments in front, behind them at most one line that is rejected
    or measured, and a layout that only a measured line changes. -/
theorem readLine_cases :
    ∃ leading, (∀ line ∈ leading, ∃ found, line = .comments (layout.commentDepth (Indent.of gs).width) found) ∧
      ((readLine stop layout gs).lines = leading ∧ (readLine stop layout gs).layout = layout ∨
      (∃ span note, layout.measure (Indent.of gs) span = .error note ∧
        (readLine stop layout gs).lines = leading ++ [.rejected note] ∧ (readLine stop layout gs).layout = layout) ∨
      ∃ span depth unit lead margin after, layout.measure (Indent.of gs) span = .ok (depth, unit) ∧
        (readLine stop layout gs).lines = leading ++ [.content depth lead (readItems stop margin [] false after).1] ∧
        (readLine stop layout gs).layout =
          ⟨unit, if (readItems stop margin [] false after).1.any Item.isPair then depth + 1 else depth⟩) := by
  refine ⟨if (readComments stop (Glyph.dropBlanks gs)).1.isEmpty then []
    else [.comments (layout.commentDepth (Indent.of gs).width) (readComments stop (Glyph.dropBlanks gs)).1], ?_, ?_⟩
  · intro line hline
    split at hline
    · cases hline
    · exact ⟨_, mem_singleton.mp hline⟩
  · simp only [readLine]
    split
    · exact .inl ⟨rfl, rfl⟩
    · split
      · rename_i hmeasure
        exact .inr (.inl ⟨_, _, hmeasure, rfl, rfl⟩)
      · rename_i hmeasure
        exact .inr (.inr ⟨_, _, _, _, _, _, hmeasure, rfl, rfl⟩)

theorem breakAt_endsName_suffix :
    (breakAt endsName gs).2 <:+ gs.drop (Text.trimEnd (chars (breakAt endsName gs).1)).length := by
  have htrim := (dropWhile_suffix Text.isWhitespace (l := (chars (breakAt endsName gs).1).reverse)).length_le
  have hlength := congrArg List.length (breakAt_append endsName gs)
  refine suffix_of_suffix_length_le (breakAt_suffix endsName gs) (drop_suffix _ gs) ?_
  simp only [Text.trimEnd, chars, length_reverse, length_map, length_append, length_drop] at htrim hlength ⊢
  omega

theorem readLines_nil : readLines stop layout [] = [] := by
  rw [readLines, dif_pos rfl]

theorem readLines_of_readLine {stop : Position} {layout layout' : Layout} {gs rest : List Glyph} {lines : List Line}
    (h : readLine stop layout gs = ⟨lines, layout', rest⟩) :
    readLines stop layout gs = lines ++ readLines stop layout' rest := by
  rw [readLines]
  split
  · rename_i hgs
    have hcomments : readComments stop [] = ([], []) := by rw [readComments, dif_neg (by simp)]
    simp only [hgs, readLine, show Glyph.dropBlanks [] = [] from rfl, hcomments] at h
    cases h
    exact (readLines_nil ..).symm
  · simp only [h]

end Line

end PairMarkup
