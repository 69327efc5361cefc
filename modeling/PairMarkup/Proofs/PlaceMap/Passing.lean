import PairMarkup.Proofs.Quoting
import PairMarkup.Proofs.PlaceMap.Building

namespace PairMarkup.Line

open List Glyph TailSwap

variable {stop : Position} {layout layout' : Layout} {gs rest : List Glyph} {lines : List Line}

/-- From the beginning of a line on, these lines are read before the beginning of another one is come to. -/
inductive Passes (stop : Position) : Layout → List Glyph → List Line → Layout → List Glyph → Prop
  | nil (layout : Layout) (gs : List Glyph) : Passes stop layout gs [] layout gs
  | cons {layout mid layout' : Layout} {gs next rest : List Glyph} {first lines : List Line} (hgs : gs ≠ [])
      (hread : readLine stop layout gs = ⟨first, mid, next⟩) (h : Passes stop mid next lines layout' rest) :
      Passes stop layout gs (first ++ lines) layout' rest

namespace Passes

section

variable (h : Passes stop layout gs lines layout' rest)

include h

theorem readLines_eq : readLines stop layout gs = lines ++ readLines stop layout' rest := by
  induction h with
  | nil => rfl
  | cons _ hread _ ih => rw [readLines_of_readLine hread, ih, append_assoc]

theorem suffix : rest <:+ gs := by
  induction h with
  | nil => exact suffix_refl _
  | @cons layout _ _ gs _ _ _ _ _ hread _ ih =>
    have hnext := readLine_suffix stop layout gs
    rw [hread] at hnext
    exact ih.trans hnext

/-- What is come to behind a line stands behind a line break. -/
theorem exists_lineBreak (hrest : rest ≠ []) :
    lines = [] ∧ layout' = layout ∧ rest = gs ∨ ∃ g, g.isLineBreak ∧ g :: rest <:+ gs := by
  induction h with
  | nil => exact .inl ⟨rfl, rfl, rfl⟩
  | @cons layout _ _ gs _ _ _ _ _ hread _ ih =>
    obtain ⟨behind, hbehind, hend, hnext⟩ := exists_readLine_rest stop layout gs
    rw [hread] at hnext
    obtain rfl := hnext
    rcases ih hrest with ⟨-, -, rfl⟩ | ⟨g, hg, hsuffix⟩
    · cases behind with
      | nil => exact absurd rfl hrest
      | cons g behind =>
        have hbreak : g.isLineBreak := hend
        exact .inr ⟨g, hbreak, by rwa [dropLineBreak, if_pos hbreak]⟩
    · exact .inr ⟨g, hg, hsuffix.trans ((dropLineBreak_suffix _).trans hbehind)⟩

end

theorem eq_nil (h : Passes stop layout gs lines layout' gs) : lines = [] ∧ layout' = layout := by
  cases h with
  | nil => exact ⟨rfl, rfl⟩
  | cons hgs hread h =>
    have hlt := length_readLine_lt stop layout hgs
    rw [hread] at hlt
    exact absurd h.suffix.length_le hlt.not_ge

theorem readLines_send {f : TailSwap} (hhalts : ∀ margin, f.Halts margin) (htail : f.tail.tail ≠ [])
    (hgs : f.tail <:+ gs)
    (hcloses : ∀ depth lead items item, .content depth lead items ∈ lines → .pair item ∈ items → f.Closes item.notes)
    (h : Passes f.stop layout gs lines layout' f.tail.tail) :
    readLines f.stop' layout (f.send gs) = lines.map f.line ++ readLines f.stop' layout' f.tail'.tail := by
  generalize hrest : f.tail.tail = rest at h
  induction h with
  | nil layout gs =>
    have hlength := hgs.length_le
    have hpos := length_pos_of_ne_nil htail
    rw [← hrest, length_tail] at hlength
    rw [length_tail] at hpos
    omega
  | @cons layout _ _ gs _ _ _ lines hne hread h ih =>
    subst hrest
    have hline := exists_readLine_send layout hhalts hgs
    rw [hread] at hline
    obtain ⟨behind, hbehind, rfl, hsent⟩ := hline (.inr ⟨htail, h.suffix⟩)
      fun depth lead items item hline => hcloses depth lead items item (mem_append_left _ hline)
    have hcloses := fun depth lead items item hline => hcloses depth lead items item (mem_append_right _ hline)
    rw [readLines_of_readLine hsent, map_append, append_assoc]
    refine congrArg (map f.line _ ++ ·) ?_
    dsimp only
    cases behind with
    | nil => exact absurd (suffix_nil.mp hbehind) fun heq => htail (by rw [heq]; rfl)
    | cons g behind =>
      obtain ⟨gs', hsend, hrest, hparts⟩ := exists_send_cons hbehind
      rw [hsend, dropLineBreak, f.glyph_isLineBreak]
      rw [dropLineBreak] at h ih
      split at h
      · rename_i hbreak
        rw [if_pos hbreak] at ih ⊢
        rcases suffix_cons_iff.mp hbehind with htail' | hbehind
        · -- the texts part here, and no line is left
          rw [htail', tail_cons] at h
          obtain ⟨rfl, rfl⟩ := h.eq_nil
          rw [hparts htail']
          rfl
        · rw [hrest hbehind]
          exact ih hbehind hcloses rfl
      · rename_i hbreak
        rw [if_neg hbreak] at ih ⊢
        rw [← hsend]
        exact ih hbehind hcloses rfl

end Passes

end PairMarkup.Line
