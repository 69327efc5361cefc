import PairMarkup.Proofs.Parsing

namespace PairMarkup

open List Relation Line

theorem Cursor.length_ahead_le (c : Cursor) : c.ahead.length ≤ c.rest.length := by
  obtain ⟨n, last, htakes, hahead, hlength⟩ := Takes.of_suffix (nil_suffix (l := c.ahead))
  obtain ⟨-, -, hle, hstop⟩ := htakes.spec
  have hoffset := congrArg Position.offset hstop
  have hrest : last.rest = [] := List.isEmpty_iff.mp (ahead_eq_nil_iff.mp hahead)
  rw [offset_stop, offset_stop, hrest] at hoffset
  simp only [length_nil] at hlength hoffset
  omega

/-- What one round of a loop comes to: it leaves the loop, or it goes on and adds to the result. -/
inductive Round (σ ρ : Type) where
  | leave (result : ρ)
  | goOn (next : σ) (add : ρ → ρ)

/-- The result, if `f` gives that of the further rounds. -/
def Round.resume {σ ρ : Type} (f : σ → ρ) : Round σ ρ → ρ
  | leave result => result
  | goOn next add => add (f next)

/-- A loop over what remains of a text. -/
structure Loop (σ ρ : Type) where
  round : σ → Round σ ρ
  rest : σ → List Glyph

namespace Loop

variable {σ ρ : Type} {loop : Loop σ ρ} {f : σ → ρ}

/-- Goes through a number of rounds. There is no result if the loop is not left by then. -/
def run (loop : Loop σ ρ) : (rounds : Nat) → σ → Option ρ
  | 0, _ => none
  | n + 1, s =>
    match loop.round s with
    | .leave result => some result
    | .goOn next add => (loop.run n next).map add

/-- One round leads from one state to the next. -/
def GoesOn (loop : Loop σ ρ) (s next : σ) : Prop := ∃ add, loop.round s = .goOn next add

/-- Every round that goes on leaves less of the text. -/
def Shrinks (loop : Loop σ ρ) : Prop := ∀ s next, loop.GoesOn s next →
    loop.rest next <:+ loop.rest s ∧ (loop.rest next).length < (loop.rest s).length

/-- The loop is run through from every place of a stream: each round takes a character or is the
    last one, and there are no more rounds than characters, but for the last. -/
structure Ends (loop : Loop σ ρ) (f : σ → ρ) : Prop where
  advances : ∀ (c : Cursor) {s next}, c.ahead = loop.rest s → loop.GoesOn s next →
    ∃ c', c.Advances c' ∧ c'.ahead = loop.rest next
  ends : ∀ (c : Cursor) {s}, c.ahead = loop.rest s →
    ∃ rounds, rounds ≤ c.rest.length + 1 ∧ loop.run rounds s = some (f s)

theorem Shrinks.run_eq (hshrinks : loop.Shrinks) (hf : ∀ s, f s = (loop.round s).resume f) {n : Nat}
    {s : σ} (hn : (loop.rest s).length < n) : loop.run n s = some (f s) := by
  induction n generalizing s with
  | zero => exact absurd hn (Nat.not_lt_zero _)
  | succ n ih =>
    rw [hf s, run]
    cases hround : loop.round s with
    | leave result => rfl
    | goOn next add =>
      obtain ⟨-, hlt⟩ := hshrinks s next ⟨add, hround⟩
      have hnext : (loop.rest next).length < n := by omega
      simp only [ih hnext, Option.map_some, Round.resume]

/-- A loop whose rounds take characters ends with what its rounds give. -/
theorem Shrinks.ends (hshrinks : loop.Shrinks) (hf : ∀ s, f s = (loop.round s).resume f) : loop.Ends f where
  advances c s next hc hnext := by
    obtain ⟨hsuffix, hlt⟩ := hshrinks s next hnext
    rw [← hc] at hsuffix hlt
    exact Cursor.exists_advances hsuffix hlt
  ends c s hc := by
    refine ⟨c.rest.length + 1, le_rfl, hshrinks.run_eq hf ?_⟩
    rw [← hc]
    exact Nat.lt_succ_of_le c.length_ahead_le

/-- The rounds lead to one that leaves the loop, with no more of the text ahead than before. -/
theorem Shrinks.exists_last (hshrinks : loop.Shrinks) (s : σ) :
    ∃ last result, ReflTransGen loop.GoesOn s last ∧ loop.rest last <:+ loop.rest s ∧
      loop.round last = .leave result := by
  generalize hn : (loop.rest s).length = n
  induction n using Nat.strongRecOn generalizing s with
  | _ n ih =>
    cases hround : loop.round s with
    | leave result => exact ⟨s, result, .refl, suffix_refl _, hround⟩
    | goOn next add =>
      have hstep : loop.GoesOn s next := ⟨add, hround⟩
      obtain ⟨hsuffix, hlt⟩ := hshrinks s next hstep
      obtain ⟨last, result, hsteps, hrest, hleave⟩ := ih _ (hn ▸ hlt) next rfl
      exact ⟨last, result, hsteps.head hstep, hrest.trans hsuffix, hleave⟩

end Loop

namespace Line

open Glyph

theorem length_lt_of_suffix_cons {g : Glyph} {gs rest : List Glyph} (h : rest <:+ gs) :
    rest <:+ g :: gs ∧ rest.length < (g :: gs).length :=
  ⟨h.trans (suffix_cons g gs), Nat.lt_succ_of_le h.length_le⟩

/-- Takes characters up to the first place where `stops` holds of what follows. -/
def takingLoop (stops : List Glyph → Bool) : Loop (List Glyph) (List Glyph × List Glyph) where
  round
    | [] => .leave ([], [])
    | g :: gs =>
      if stops (g :: gs) then .leave ([], g :: gs) else .goOn gs fun more => (g :: more.1, more.2)
  rest gs := gs

theorem takingLoop_ends (stops : List Glyph → Bool) : (takingLoop stops).Ends (breakAt stops) := by
  refine Loop.Shrinks.ends ?_ ?_
  · rintro gs next ⟨add, hround⟩
    cases gs with
    | nil => cases hround
    | cons g gs =>
      simp only [takingLoop] at hround
      split at hround
      · cases hround
      · cases hround
        exact length_lt_of_suffix_cons (suffix_refl _)
  · intro gs
    cases gs with
    | nil => rfl
    | cons g gs =>
      simp only [takingLoop, breakAt]
      split <;> rfl

def commentsLoop (stop : Position) : Loop (List Glyph) (List Comment × List Glyph) where
  round gs :=
    if atComment gs then
      let first := readComment stop gs
      .goOn (dropBlanks first.2) fun more => (first.1 :: more.1, more.2)
    else .leave ([], gs)
  rest gs := gs

variable (stop : Position) (margin : Margin) (start : Position) (quote : Char)

theorem commentsLoop_ends : (commentsLoop stop).Ends (readComments stop) := by
  refine Loop.Shrinks.ends ?_ ?_
  · rintro gs next ⟨add, hround⟩
    simp only [commentsLoop] at hround
    split at hround
    · rename_i hcomment
      cases hround
      have hblanks := dropBlanks_suffix (readComment stop gs).2
      refine ⟨hblanks.trans ((readComment_suffix stop gs).trans (drop_suffix 3 gs)), ?_⟩
      exact hblanks.length_le.trans_lt (length_readComment_lt stop hcomment)
    · cases hround
  · intro gs
    rw [readComments]
    simp only [commentsLoop]
    split <;> rfl

def quotedNameLoop (stop start : Position) (quote : Char) : Loop (List Glyph) (Read (List Char)) where
  round
    | [] => .leave ⟨[], [missingQuote ⟨start, stop⟩], []⟩
    | g :: rest =>
      if g.isLineBreak then .leave ⟨[], [missingQuote ⟨start, g.position⟩], g :: rest⟩
      else if g.char = quote then .leave ⟨[], [], rest⟩
      else if g.char = '\\' && quote = '"' then
        let escape := readEscape stop g.position rest
        .goOn escape.rest fun more =>
          ⟨escape.value ++ more.value, escape.notes ++ more.notes, more.rest⟩
      else .goOn rest fun more => ⟨g.char :: more.value, more.notes, more.rest⟩
  rest gs := gs

theorem quotedNameLoop_ends : (quotedNameLoop stop start quote).Ends (readQuotedText stop start quote) := by
  refine Loop.Shrinks.ends ?_ ?_
  · rintro gs next ⟨add, hround⟩
    cases gs with
    | nil => cases hround
    | cons g rest =>
      simp only [quotedNameLoop] at hround
      split_ifs at hround
      · cases hround
        exact length_lt_of_suffix_cons (readEscape_suffix stop g.position rest)
      · cases hround
        exact length_lt_of_suffix_cons (suffix_refl _)
  · intro gs
    rw [readQuotedText.eq_def]
    cases gs with
    | nil => rfl
    | cons g rest =>
      simp only [quotedNameLoop]
      split_ifs <;> rfl

def piecesLoop (stop : Position) (margin : Margin) (start : Position) (quote : Char) :
    Loop (List Glyph) (Read (List Piece)) where
  round
    | [] => .leave ⟨[], [missingQuote ⟨start, stop⟩], []⟩
    | g :: rest =>
      if g.char = quote then .leave ⟨[], [], rest⟩
      else if g.isLineBreak then
        if atLineEnd (dropBlanks rest) || margin.continues rest then
          .goOn (dropUpToColumn start.column rest) fun more =>
            ⟨.char '\n' :: more.value, margin.check stop rest ++ more.notes, more.rest⟩
        else .leave ⟨[], [missingQuote ⟨start, g.position⟩], g :: rest⟩
      else if g.char = '\\' && quote = '"' then
        let escape := readEscape stop g.position rest
        .goOn escape.rest fun more =>
          ⟨escape.value.map .char ++ more.value, escape.notes ++ more.notes, more.rest⟩
      else if quote = '"' && referenceInText (g :: rest) then
        let reference := readReference stop (g :: rest)
        .goOn reference.2 fun more => ⟨.reference reference.1 :: more.value, more.notes, more.rest⟩
      else .goOn rest fun more => ⟨.char g.char :: more.value, more.notes, more.rest⟩
  rest gs := gs

theorem piecesLoop_ends : (piecesLoop stop margin start quote).Ends (readPieces stop margin start quote) := by
  refine Loop.Shrinks.ends ?_ ?_
  · rintro gs next ⟨add, hround⟩
    cases gs with
    | nil => cases hround
    | cons g rest =>
      simp only [piecesLoop] at hround
      split_ifs at hround
      · cases hround
        exact length_lt_of_suffix_cons (dropUpToColumn_suffix start.column rest)
      · cases hround
        exact length_lt_of_suffix_cons (readEscape_suffix stop g.position rest)
      · cases hround
        exact ⟨readReference_suffix stop (g :: rest), length_readReference_lt stop g rest⟩
      · cases hround
        exact length_lt_of_suffix_cons (suffix_refl _)
  · intro gs
    rw [readPieces.eq_def]
    cases gs with
    | nil => rfl
    | cons g rest =>
      simp only [piecesLoop]
      split_ifs <;> rfl

/-- Reads the further lines of a value, with the width to strip off them once it is known. -/
def furtherLinesLoop (stop : Position) (margin : Margin) :
    Loop (Option Nat × List Glyph) (Read (List (List Char))) where
  round
    | (_, []) => .leave ⟨[], [], []⟩
    | (strip, g :: next) =>
      if g.isLineBreak && margin.continues next then
        let width := (Indent.of next).width
        let strip := strip.getD width
        let body := next.drop (min strip width)
        let line := chars (body.takeWhile fun g => !g.isLineBreak)
        .goOn (some strip, dropLine body) fun more =>
          ⟨line :: more.value, margin.check stop next ++ more.notes, more.rest⟩
      else .leave ⟨[], [], g :: next⟩
  rest s := s.2

theorem furtherLinesLoop_ends :
    (furtherLinesLoop stop margin).Ends fun s => readFurtherLines stop margin s.1 s.2 := by
  refine Loop.Shrinks.ends ?_ ?_
  · rintro ⟨strip, gs⟩ next ⟨add, hround⟩
    cases gs with
    | nil => cases hround
    | cons g gs =>
      simp only [furtherLinesLoop] at hround
      split at hround
      · cases hround
        exact length_lt_of_suffix_cons ((dropLine_suffix _).trans (drop_suffix _ gs))
      · cases hround
  · rintro ⟨strip, gs⟩
    simp only
    rw [readFurtherLines.eq_def]
    cases gs with
    | nil => rfl
    | cons g gs =>
      simp only [furtherLinesLoop]
      split <;> rfl

/-- How far the pairs of a line have been read. -/
structure ItemsState where
  groups : List Position
  complete : Bool
  rest : List Glyph

/-- Reads the pairs of a line, with the marks and comments between them. -/
def itemsLoop (stop : Position) (margin : Margin) : Loop ItemsState (List Item × List Glyph) where
  round s :=
    match dropBlanks s.rest with
    | [] => .leave (unclosed s.groups, [])
    | g :: rest =>
      if g.isLineBreak then .leave (unclosed s.groups, g :: rest)
      else if atComment (g :: rest) then
        let found := readComments stop (g :: rest)
        .goOn ⟨s.groups, s.complete, found.2⟩ fun more => (found.1.map .comment ++ more.1, more.2)
      else if g.char = ',' then
        .goOn ⟨s.groups, false, rest⟩ fun more => (.separator :: more.1, more.2)
      else if g.char = ')' && !s.groups.isEmpty then
        .goOn ⟨s.groups.tail, true, rest⟩ fun more => (.closeGroup :: more.1, more.2)
      else if g.char = '(' && !s.complete then
        .goOn ⟨g.position :: s.groups, false, rest⟩ fun more => (.openGroup :: more.1, more.2)
      else if s.complete || g.char = ')' || g.char = '(' then
        .leave (unexpected g.shown g.position :: unclosed s.groups, dropLine rest)
      else if isVacant (readHead stop (g :: rest)).value then
        let after := (readHead stop (g :: rest)).rest
        .leave (unexpected (after.head?.map (·.shown)) g.position :: unclosed s.groups, dropLine after)
      else
        let head := readHead stop (g :: rest)
        let pair := readBody stop margin (!s.groups.isEmpty) head.value head.rest
        .goOn ⟨s.groups, isComplete pair.1, pair.2⟩ fun more =>
          (head.notes.map .note ++ .pair pair.1 :: more.1, more.2)
  rest s := s.rest

theorem itemsLoop_ends : (itemsLoop stop margin).Ends fun s => readItems stop margin s.groups s.complete s.rest := by
  refine Loop.Shrinks.ends ?_ ?_
  · rintro ⟨groups, complete, gs⟩ next ⟨add, hround⟩
    have hblanks := dropBlanks_suffix gs
    simp only [itemsLoop] at hround ⊢
    split at hround
    · cases hround
    · rename_i g rest hcons
      rw [hcons] at hblanks
      -- What a round takes it takes from behind the blanks.
      suffices hnext : next.rest <:+ g :: rest ∧ next.rest.length < (g :: rest).length from
        ⟨hnext.1.trans hblanks, hnext.2.trans_le hblanks.length_le⟩
      have hone := length_lt_of_suffix_cons (g := g) (suffix_refl rest)
      split_ifs at hround with _ hcomment _ _ _ _ hfound
      · cases hround
        exact ⟨readComments_suffix stop _, length_readComments_lt stop hcomment⟩
      · cases hround
        exact hone
      · cases hround
        exact hone
      · cases hround
        exact hone
      · cases hround
        have hbody := readBody_suffix stop margin (!groups.isEmpty) (readHead stop (g :: rest)).value
          (readHead stop (g :: rest)).rest
        refine ⟨hbody.trans (readHead_suffix stop _), hbody.length_le.trans_lt ?_⟩
        exact length_readHead_lt (Bool.eq_false_iff.mpr hfound)
  · rintro ⟨groups, complete, gs⟩
    simp only [itemsLoop]
    cases hblanks : dropBlanks gs with
    | nil => exact readItems_of_nil hblanks stop margin groups complete
    | cons g rest =>
      rw [readItems_of_cons hblanks]
      simp only
      split_ifs <;> rfl

end Line

namespace Builder

/-- How far a module has been read and put together. -/
structure ModuleState where
  builder : Builder
  layout : Line.Layout
  rest : List Glyph

/-- Reads the lines of a module and adds what they hold. -/
def moduleLoop (stop : Position) (site : Site) : Loop ModuleState (Except Halt Builder) where
  round s :=
    if s.rest = [] then .leave (.ok s.builder)
    else
      let line := Line.readLine stop s.layout s.rest
      match line.lines.foldlM (addLine site) s.builder with
      | .ok builder => .goOn ⟨builder, line.layout, line.rest⟩ id
      | .error halt => .leave (.error halt)
  rest s := s.rest

/-- What the lines from a state on make. -/
def ModuleState.outcome (stop : Position) (site : Site) (s : ModuleState) : Except Halt Builder :=
  (Line.readLines stop s.layout s.rest).foldlM (addLine site) s.builder

variable {stop : Position} {site : Site}

section

variable (stop site)

theorem moduleLoop_shrinks : (moduleLoop stop site).Shrinks := by
  rintro s next ⟨add, hround⟩
  simp only [moduleLoop] at hround ⊢
  split at hround
  · cases hround
  · rename_i hrest
    split at hround
    · cases hround
      exact ⟨readLine_suffix stop s.layout s.rest, length_readLine_lt stop s.layout hrest⟩
    · cases hround

theorem outcome_eq (s : ModuleState) :
    s.outcome stop site = ((moduleLoop stop site).round s).resume (·.outcome stop site) := by
  simp only [ModuleState.outcome, moduleLoop]
  rw [readLines]
  split
  · rfl
  · rw [foldlM_append]
    cases (readLine stop s.layout s.rest).lines.foldlM (addLine site) s.builder with
    | ok builder => rfl
    | error halt => rfl

theorem moduleLoop_ends : (moduleLoop stop site).Ends (·.outcome stop site) :=
  (moduleLoop_shrinks stop site).ends (outcome_eq stop site)

end

/-- A round that goes on leaves it to the further ones what the lines make. -/
theorem outcome_eq_of_goesOn {s last : ModuleState} (h : ReflTransGen (moduleLoop stop site).GoesOn s last) :
    s.outcome stop site = last.outcome stop site := by
  induction h with
  | refl => rfl
  | @tail s next _ hstep ih =>
    obtain ⟨add, hround⟩ := hstep
    rw [ih, outcome_eq stop site s, hround]
    simp only [moduleLoop] at hround
    split at hround
    · cases hround
    · split at hround
      · cases hround
        rfl
      · cases hround

/-- The lines are over only at the end of the text, or where a fault ends them. -/
theorem rest_eq_nil_of_leave {s : ModuleState} {b : Builder}
    (h : (moduleLoop stop site).round s = .leave (.ok b)) : s.rest = [] := by
  simp only [moduleLoop] at h
  split at h
  · assumption
  · split at h
    · cases h
    · cases h

end Builder

open Builder Line in
/-- Every loop of the reader takes characters in each round that does not leave it, and is left after
    no more rounds than that allows. So are the lines of a module, whatever the text and the format,
    and if no fault has ended them, the stream is then at the end of the text. -/
theorem reading_advances_and_ends (stop : Position) (margin : Margin) (site : Site) :
    (itemsLoop stop margin).Ends (fun s => readItems stop margin s.groups s.complete s.rest) ∧
    (commentsLoop stop).Ends (readComments stop) ∧
    (∀ start quote, (piecesLoop stop margin start quote).Ends (readPieces stop margin start quote)) ∧
    (∀ start quote, (quotedNameLoop stop start quote).Ends (readQuotedText stop start quote)) ∧
    (∀ inGroup, (takingLoop (endsOpenString inGroup)).Ends (Glyph.breakAt (endsOpenString inGroup))) ∧
    (furtherLinesLoop stop margin).Ends (fun s => readFurtherLines stop margin s.1 s.2) ∧
    (∀ (c : Cursor) (layout : Layout), c.isAtEnd = false →
      ∃ c', c.Advances c' ∧ c'.ahead = (readLine stop layout c.ahead).rest) ∧
    (moduleLoop stop site).Ends (·.outcome stop site) ∧
    ∀ (set : ModuleSet) (file : String) (format : Format) (text : List Char),
      let stream := Cursor.ofList text
      let loop := moduleLoop stream.stop (set.nextSite file format)
      let first : ModuleState := ⟨set.opened file format, .initial, stream.ahead⟩
      ∃ rounds outcome, rounds ≤ text.length + 1 ∧ loop.run rounds first = some outcome ∧
        (set.parse file format text).result = (outcome.map (set.closed file format)).mapError Halt.fault ∧
        ∀ b, outcome = .ok b → ∃ last n c, Relation.ReflTransGen loop.GoesOn first last ∧
          loop.round last = .leave outcome ∧ stream.Takes n c ∧ c.ahead = last.rest ∧
          c.isAtEnd = true := by
  refine ⟨itemsLoop_ends stop margin, commentsLoop_ends stop, piecesLoop_ends stop margin,
    quotedNameLoop_ends stop, fun inGroup => takingLoop_ends _, furtherLinesLoop_ends stop margin,
    ?_, moduleLoop_ends stop site, ?_⟩
  · intro c layout hc
    have hahead : c.ahead ≠ [] := by
      intro hnil
      rw [Cursor.ahead_eq_nil_iff.mp hnil] at hc
      cases hc
    exact Cursor.exists_advances (readLine_suffix stop layout _) (length_readLine_lt stop layout hahead)
  intro set file format text stream loop first
  obtain ⟨rounds, hrounds, hrun⟩ :=
    (moduleLoop_ends stream.stop (set.nextSite file format)).ends stream (s := first) rfl
  refine ⟨rounds, _, hrounds, hrun, ?_, fun b hb => ?_⟩
  · exact set.result_parse file format text
  · obtain ⟨last, result, hsteps, hsuffix, hleave⟩ :=
      (moduleLoop_shrinks stream.stop (set.nextSite file format)).exists_last first
    have houtcome : first.outcome stream.stop (set.nextSite file format) = result := by
      rw [outcome_eq_of_goesOn hsteps, outcome_eq, hleave]
      rfl
    obtain ⟨n, c, htakes, hahead, -⟩ := Cursor.Takes.of_suffix hsuffix
    rw [houtcome] at hb ⊢
    refine ⟨last, n, c, hsteps, hleave, htakes, hahead, Cursor.ahead_eq_nil_iff.mp ?_⟩
    rw [hahead]
    rw [hb] at hleave
    exact rest_eq_nil_of_leave hleave

end PairMarkup
