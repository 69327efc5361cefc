import PairMarkup.Proofs.Codes
import PairMarkup.Proofs.PlaceMap.Passing

namespace PairMarkup

open List Glyph

namespace BuilderMap

variable (earlier : List Diagnostic)

theorem behind_builder (b : Builder) : (behind earlier).builder b = { b with log := earlier ++ b.log } := by
  have htree : (behind earlier).tree b.tree = b.tree := congrArg PairTree.mk (Array.map_id _)
  have hlog : b.log.map (behind earlier).diagnostic = b.log := by
    refine (map_congr_left fun d _ => ?_).trans (map_id _)
    have hmessage : (behind earlier).text d.message = d.message := by simp [PlaceMap.text, behind]
    simp only [PlaceMap.diagnostic, hmessage, ite_self]
    rfl
  simp only [builder, htree, log, hlog]
  rfl

theorem behind_lines (stop : Position) (layout : Line.Layout) (gs : List Glyph) :
    (Line.readLines stop layout gs).map (behind earlier).line = Line.readLines stop layout gs := by
  rw [← Line.readLines_moved fun _ => rfl, show gs.map (behind earlier).glyph = gs from map_id gs]
  rfl

end BuilderMap

/-- What was found before makes no difference to further lines. -/
theorem Builder.foldlM_addLine_log {site : Site} {b b' : Builder} {lines : List Line} {earlier : List Diagnostic}
    (hlines : lines.map (BuilderMap.behind earlier).line = lines) :
    lines.foldlM (addLine site) { b with log := earlier ++ b.log } = .ok b' ↔
      ∃ c, lines.foldlM (addLine site) b = .ok c ∧ b' = { c with log := earlier ++ c.log } := by
  have hmoved := outcome_foldlM (fun b => addLine_moved (r := .behind earlier) b site fun _ => rfl) lines b
  rw [hlines, BuilderMap.behind_builder] at hmoved
  rw [hmoved]
  cases lines.foldlM (addLine site) b with
  | error halt => exact ⟨nofun, nofun⟩
  | ok c =>
    change Except.ok ((BuilderMap.behind earlier).builder c) = _ ↔ _
    rw [BuilderMap.behind_builder, Except.ok.injEq]
    exact ⟨fun h => ⟨c, rfl, h.symm⟩, fun ⟨_, hc, h⟩ => Except.ok.inj hc ▸ h.symm⟩

theorem Builder.exists_mem_log {site : Site} {b b' : Builder} {lines : List Line} {note : Note}
    (h : lines.foldlM (addLine site) b = .ok b') (hnote : note ∈ lines.flatMap Line.notes)
    (hcode : note.code ≠ .blockIsNotExpected) : ∃ d ∈ b'.log, d.code = note.code := by
  have hfound : note.code ∈ b'.found := by
    rw [found_foldlM h]
    exact mem_append_right _ (mem_filter.mpr ⟨mem_map_of_mem hnote, decide_eq_true hcode⟩)
  exact mem_map.mp (mem_of_mem_filter hfound)

namespace Line

variable {stop : Position} {layout : Layout} {line after : List Char} {note : Note} {gs rest : List Glyph}

/-- The line that begins here has something on it that is no comment, and is rejected for its indentation. -/
structure Refuses (stop : Position) (layout : Layout) (gs : List Glyph) (note : Note) : Prop where
  not_blank : atLineEnd (dropBlanks gs) = false
  not_comment : atComment (dropBlanks gs) = false
  measure_eq : layout.measure (Indent.of gs) ⟨here stop gs, here stop (dropBlanks gs)⟩ = .error note

theorem dropLine_dropBlanks (gs : List Glyph) : dropLine (dropBlanks gs) = dropLine gs := by
  induction gs with
  | nil => rfl
  | cons g gs ih =>
    rw [dropBlanks, dropWhile_cons]
    split
    · have hbreak : g.isLineBreak = false := Bool.eq_false_iff.mpr fun hbreak => by
        simp_all [TailSwap.isBlank_of_isLineBreak g hbreak]
      exact ih.trans (dropWhile_cons_of_pos (by simp [hbreak])).symm
    · rfl

theorem Refuses.readLine_eq (h : Refuses stop layout (gs ++ rest) note) (hgs : ∀ g ∈ gs, g.isLineBreak = false)
    (hend : atLineEnd rest) :
    readLine stop layout (gs ++ rest) = ⟨[.rejected note], layout, dropLineBreak rest⟩ := by
  have hnone : readComments stop (dropBlanks (gs ++ rest)) = ([], dropBlanks (gs ++ rest)) := by
    rw [readComments, dif_neg (by rw [h.not_comment]; exact Bool.false_ne_true)]
  have hdrop : dropLine (dropBlanks (gs ++ rest)) = rest := by
    rw [dropLine_dropBlanks, dropLine, dropWhile_append_of_pos fun g hg => by simp [hgs g hg]]
    exact dropLine_of_atLineEnd hend
  simp only [readLine, hnone, h.not_blank, h.measure_eq, hdrop]
  rfl

theorem dropBlanks_line (hgs : ∀ g ∈ gs, g.isBlank) (hend : atLineEnd rest) : dropBlanks (gs ++ rest) = rest := by
  rw [dropBlanks, dropWhile_append_of_pos hgs]
  exact dropBlanks_of_atLineEnd hend

theorem readLine_of_blank (hgs : ∀ g ∈ gs, g.isBlank) (hend : atLineEnd rest) :
    readLine stop layout (gs ++ rest) = ⟨[], layout, dropLineBreak rest⟩ := by
  simp only [readLine, dropBlanks_line hgs hend, readComments_of_atLineEnd stop hend, if_pos hend]
  rfl

def blank (line : List Char) : List Char := replicate line.length ' '

theorem inLine_blank (line : List Char) : ∀ c ∈ blank line, Text.isLineBreak c = false :=
  fun _ hc => eq_of_mem_replicate hc ▸ rfl

theorem isBlank_blank (line : List Char) (p : Position) : ∀ g ∈ place p (blank line), g.isBlank := fun g hg => by
  rw [isBlank_char, eq_of_mem_replicate (char_mem_of_mem_place hg)]
  rfl

theorem place_line (hline : ∀ c ∈ line, Text.isLineBreak c = false) (p : Position) :
    place p (line ++ after) = place p line ++ place (p.along line.length) after := by
  rw [← placeAfter_eq hline]
  exact place_append (.inl fun hmem => absurd (hline _ hmem) (by decide)) p

theorem place_blank (line : List Char) (p : Position) :
    place p (blank line ++ after) = place p (blank line) ++ place (p.along line.length) after := by
  have hplace : place p (blank line ++ after) = _ := place_line (inLine_blank line) p
  rwa [show (blank line).length = line.length from length_replicate] at hplace

theorem atLineEnd_place (hafter : ∀ c ∈ after.head?, Text.isLineBreak c) (p : Position) :
    atLineEnd (place p after) := by
  cases after with
  | nil => rfl
  | cons c after =>
    obtain ⟨g, rest, hplace, hg⟩ := exists_place_cons p c after
    rw [hplace]
    rw [atLineEnd, isLineBreak_char]
    rcases hg with hg | hg
    · exact hg ▸ hafter c rfl
    · rw [hg]
      rfl

/-- The lines before a blank line are the same, whatever stands there instead. -/
theorem Passes.readLines_blank {before : List Char} {lines : List Line} {c : Char}
    (hline : ∀ d ∈ c :: line, Text.isLineBreak d = false) (hafter : ∀ d ∈ after.head?, Text.isLineBreak d)
    (hcloses : ∀ note ∈ lines.flatMap notes, note.code ≠ .missingClosingQuote)
    (h : Passes stop .initial (place .start (before ++ (c :: line ++ after))) lines layout
      (place (placeAfter .start before) (c :: line ++ after))) :
    readLines stop .initial (place .start (before ++ (blank (c :: line) ++ after))) =
      lines ++ readLines stop layout (place (placeAfter .start before) (blank (c :: line) ++ after)) := by
  have hc : c ≠ '\n' := fun hc => by simp [hc, Text.isLineBreak] at hline
  rw [place_append (.inr (by simpa using hc))] at h
  rw [place_append (.inr (by simp [blank, replicate_succ]))]
  set p := placeAfter .start before
  obtain ⟨first, more, hgs, -⟩ := exists_place_cons p c (line ++ after)
  rcases h.exists_lineBreak (by rw [cons_append, hgs]; exact cons_ne_nil _ _) with ⟨rfl, rfl, hsame⟩ | ⟨g, hg, hsuffix⟩
  · rw [self_eq_append_left.mp hsame]
    rfl
  · -- the texts part at the line break before the line
    obtain ⟨pre, hpre⟩ : ∃ pre, place .start before = pre ++ [g] := by
      obtain ⟨pre, hpre⟩ := hsuffix
      rw [append_cons] at hpre
      exact ⟨pre, (append_cancel_right hpre).symm⟩
    let f : TailSwap := ⟨(BuilderMap.behind []).toPlaceMap, stop, stop, g :: place p (c :: line ++ after),
      g :: place p (blank (c :: line) ++ after), fun _ => rfl, rfl, hg, nofun⟩
    have hhalts : ∀ margin, f.Halts margin := fun margin _ => by
      have hend := atLineEnd_place hafter (p.along (c :: line).length)
      change margin.continues (place p (blank (c :: line) ++ after)) = false
      rw [place_blank, Margin.continues, dropBlanks_line (isBlank_blank _ p) hend, hend]
      rfl
    have hlines : lines.map f.line = lines := by
      have hall := BuilderMap.behind_lines [] stop .initial (place .start before ++ place p (c :: line ++ after))
      rw [h.readLines_eq, map_append] at hall
      exact append_inj_left hall (length_map ..)
    have hsend := h.readLines_send (f := f) hhalts (by simp [f, hgs]) hsuffix
      fun _ _ _ _ hline hitem _ note hnote =>
        hcloses note (mem_flatMap.mpr ⟨_, hline, mem_flatMap.mpr ⟨_, hitem, hnote⟩⟩)
    have hsent : f.send (pre ++ f.tail) = pre ++ f.tail' := by
      rw [f.send_append, show pre.map f.glyph = pre from map_id pre]
    rw [hlines, hpre, append_assoc] at hsend
    rw [hpre, append_assoc]
    exact hsent ▸ hsend

/-- The reader comes to a line of a text and rejects it for its indentation. -/
structure Rejects (before line after : List Char) (lines : List Line) (layout : Layout) (note : Note) : Prop where
  inLine : ∀ c ∈ line, Text.isLineBreak c = false
  ends : ∀ c ∈ after.head?, Text.isLineBreak c = true
  passes : Passes (placeAfter .start (before ++ (line ++ after))) .initial (place .start (before ++ (line ++ after)))
    lines layout (place (placeAfter .start before) (line ++ after))
  refuses : Refuses (placeAfter .start (before ++ (line ++ after))) layout
    (place (placeAfter .start before) (line ++ after)) note

theorem Rejects.exists_ofText {before : List Char} {lines : List Line}
    (h : Rejects before line after lines layout note) :
    ∃ stop gs, ofText (before ++ (line ++ after)) = lines ++ .rejected note :: readLines stop layout gs ∧
      ((∀ note ∈ lines.flatMap notes, note.code ≠ .missingClosingQuote) →
        ofText (before ++ (blank line ++ after)) = lines ++ readLines stop layout gs) := by
  obtain ⟨hline, hafter, hpasses, hrefuses⟩ := h
  have hstop : placeAfter .start (before ++ (blank line ++ after)) = placeAfter .start (before ++ (line ++ after)) := by
    have hsame : ∀ p, placeAfter p (blank line) = placeAfter p line := fun p => by
      rw [placeAfter_eq (inLine_blank line), placeAfter_eq hline, blank, length_replicate]
    simp only [placeAfter, foldl_append] at hsame ⊢
    rw [hsame]
  set p := placeAfter .start before
  have hend := atLineEnd_place hafter (p.along line.length)
  have hplace : place p (line ++ after) = _ := place_line hline p
  rw [hplace] at hrefuses
  have hread := hrefuses.readLine_eq (fun g hg => (isLineBreak_char g).trans (hline _ (char_mem_of_mem_place hg))) hend
  refine ⟨placeAfter .start (before ++ (line ++ after)), dropLineBreak (place (p.along line.length) after), ?_,
    fun hcloses => ?_⟩
  · rw [ofText_eq, hpasses.readLines_eq, hplace, readLines_of_readLine hread]
    rfl
  · cases line with
    | nil =>
      have hblank := hrefuses.not_blank
      rw [show place p [] = [] from rfl, nil_append, dropBlanks_of_atLineEnd hend, hend] at hblank
      cases hblank
    | cons c line =>
      rw [ofText_eq, hstop, hpasses.readLines_blank hline hafter hcloses, place_blank,
        readLines_of_readLine (readLine_of_blank (isBlank_blank _ p) hend)]
      rfl

end Line

open Builder in
/-- If a line is rejected for its indentation, the text with blanks in place of that line makes the same tree and gives
    the same diagnostics but that one. No quote is missing, since a blank line could go on with a text in quotes. -/
theorem ModuleSet.parse_of_rejected (set : ModuleSet) (file : String) (format : Format) {set' : ModuleSet}
    {before line after : List Char} {lines : List Line} {layout : Line.Layout} {note : Note}
    (h : Line.Rejects before line after lines layout note)
    (hok : (set.parse file format (before ++ (line ++ after))).result = .ok set')
    (hquotes : ∀ d ∈ (set.parse file format (before ++ (line ++ after))).log, d.code ≠ .missingClosingQuote) :
    ∃ earlier later, (set.parse file format (before ++ (line ++ after))).log =
        earlier ++ note.reported file (set.nextSite file format).fileIndex :: later ∧
      set.parse file format (before ++ (Line.blank line ++ after)) = ⟨earlier ++ later, .ok set'⟩ := by
  obtain ⟨stop, gs, htext, hblank⟩ := h.exists_ofText
  obtain ⟨b, hfold, rfl⟩ := parse_eq_ok hok
  rw [parse_eq_of_foldlM hfold] at hquotes ⊢
  have hlines := hblank fun note hnote hcode => by
    have hmem : note ∈ (Line.ofText (before ++ (line ++ after))).flatMap Line.notes := by
      rw [htext, flatMap_append]
      exact mem_append_left _ hnote
    obtain ⟨d, hd, hsame⟩ := exists_mem_log hfold hmem (by rw [hcode]; decide)
    exact hquotes d hd (hsame.trans hcode)
  rw [htext, foldlM_append] at hfold
  obtain ⟨b₁, hfirst, hfold⟩ := bind_eq_ok.mp hfold
  let d := note.reported file (set.nextSite file format).fileIndex
  let fresh : Builder := { b₁ with log := [] }
  have hrest : (Line.readLines stop layout gs).foldlM (addLine (set.nextSite file format))
      { fresh with log := (b₁.log ++ [d]) ++ fresh.log } = .ok b := by
    rw [append_nil]
    exact hfold
  obtain ⟨c, hc, rfl⟩ := (foldlM_addLine_log (BuilderMap.behind_lines ..)).mp hrest
  have hrest' := (foldlM_addLine_log (BuilderMap.behind_lines b₁.log ..)).mpr ⟨c, hc, rfl⟩
  rw [append_nil] at hrest'
  have hfold' : (Line.ofText (before ++ (Line.blank line ++ after))).foldlM (addLine (set.nextSite file format))
      (set.opened file format) = .ok { c with log := b₁.log ++ c.log } := by
    rw [hlines, foldlM_append, hfirst]
    exact hrest'
  exact ⟨b₁.log, c.log, by simp [d], parse_eq_of_foldlM hfold'⟩

theorem ModuleSet.mixedLine_rejected : ∃ lines layout note set' earlier later,
    Line.Rejects ['a', '\n'] [' ', '\t', 'b'] ['\n', 'c'] lines layout note ∧ note.code = .mixedIndentation ∧
    (ModuleSet.empty.parse "t" .json "a\n \tb\nc".toList).log = earlier ++ note.reported "t" 0 :: later ∧
    ModuleSet.empty.parse "t" .json "a\n   \nc".toList = ⟨earlier ++ later, .ok set'⟩ := by
  let first := Line.readLine ⟨3, 2, 7⟩ .initial
  have hpasses : ∀ gs ≠ [],
      Line.Passes ⟨3, 2, 7⟩ .initial gs ((first gs).lines ++ []) (first gs).layout (first gs).rest :=
    fun gs hgs => .cons hgs rfl (.nil ..)
  have hfirst := hpasses (place .start "a\n \tb\nc".toList) nofun
  rw [show (first _).rest = place ⟨2, 1, 2⟩ " \tb\nc".toList by decide +kernel] at hfirst
  have hrejects : Line.Rejects ['a', '\n'] [' ', '\t', 'b'] ['\n', 'c'] _ _ _ :=
    ⟨by simp [Text.isLineBreak], by simp [Text.isLineBreak], hfirst, by decide +kernel, by decide +kernel, rfl⟩
  have hread : (ModuleSet.empty.parse "t" .json "a\n \tb\nc".toList).result.toBool := by decide +kernel
  cases hok : (ModuleSet.empty.parse "t" .json "a\n \tb\nc".toList).result with
  | error =>
    rw [hok] at hread
    cases hread
  | ok set' =>
    obtain ⟨earlier, later, hlog, hblank⟩ := parse_of_rejected .empty "t" .json hrejects hok (by decide +kernel)
    exact ⟨_, _, _, set', earlier, later, hrejects, rfl, hlog, hblank⟩

end PairMarkup
