import PairMarkup.Proofs.Reading

namespace PairMarkup

open List Glyph

/-- Other places for the same things. A line break may also be written in another way. -/
structure PlaceMap where
  lineOf : Nat → Nat
  columnOf : Nat → Nat
  offsetOf : Nat → Nat
  shownOf : Char → Char
  shownOf_eq : ∀ c, shownOf c = c ∨ Text.isLineBreak c = true ∧ Text.isLineBreak (shownOf c) = true

namespace PlaceMap

variable (r : PlaceMap) (g : Glyph)

def position (p : Position) : Position := ⟨r.lineOf p.line, r.columnOf p.column, r.offsetOf p.offset⟩

def span (s : Span) : Span := ⟨r.position s.start, r.position s.stop⟩

def glyph (g : Glyph) : Glyph where
  char := g.char
  shown := r.shownOf g.shown
  position := r.position g.position
  shown_eq := (r.shownOf_eq g.shown).elim (fun h => by rw [h]; exact g.shown_eq)
    fun h => .inr ⟨h.2, (isLineBreak_char g).symm.trans h.1⟩

def text (s : String) : String := String.ofList (s.toList.map r.shownOf)

/-- Only notes on an unexpected character tell how a line break is written. -/
def note (n : Note) : Note where
  code := n.code
  arguments := if n.code = .unexpectedCharacter then n.arguments.map r.text else n.arguments
  span := r.span n.span
  ofReading := n.ofReading

def name (n : Name) : Name := { n with span := r.span n.span }

def head (h : Head) : Head := { h with name := h.name.map r.name, span := r.span h.span }

def reference (x : Reference) : Reference := { x with name := x.name.map r.name, span := r.span x.span }

def segment : Segment → Segment
  | .text content span => .text content (r.span span)
  | .reference found => .reference (r.reference found)

def value : Value → Value
  | .text content kind => .text content kind
  | .bare content => .bare content
  | .reference found => .reference (r.reference found)
  | .segments parts hparts => .segments (parts.map r.segment) (mt map_eq_nil_iff.mp hparts)

def comment (c : Comment) : Comment := { c with span := r.span c.span }

def pairItem (item : PairItem) : PairItem where
  head := r.head item.head
  value := item.value.map r.value
  notes := item.notes.map r.note
  stop := r.position item.stop
  opensGroup := item.opensGroup
  announced := Option.isSome_map.trans item.announced
  grouped h := congrArg (Option.map r.value) (item.grouped h)
  free h := by
    obtain ⟨content, kind, hvalue⟩ := item.free h
    exact ⟨content, kind, congrArg (Option.map r.value) hvalue⟩

def item : Item → Item
  | .separator => .separator
  | .openGroup => .openGroup
  | .closeGroup => .closeGroup
  | .comment c => .comment (r.comment c)
  | .pair item => .pair (r.pairItem item)
  | .note n => .note (r.note n)

def line : Line → Line
  | .comments depth cs => .comments depth (cs.map r.comment)
  | .rejected note => .rejected (r.note note)
  | .content depth lead items => .content depth (r.span lead) (items.map r.item)

def piece : Line.Piece → Line.Piece
  | .char c => .char c
  | .reference found => .reference (r.reference found)

@[simp] theorem glyph_char : (r.glyph g).char = g.char := rfl

@[simp] theorem glyph_position : (r.glyph g).position = r.position g.position := rfl

@[simp] theorem glyph_isLineBreak : (r.glyph g).isLineBreak = g.isLineBreak := by
  rw [isLineBreak_char, isLineBreak_char, glyph_char]

theorem glyph_isBlank : (r.glyph g).isBlank = g.isBlank := by
  rw [isBlank_char, isBlank_char, glyph_char]

@[simp] theorem chars_map_glyph (gs : List Glyph) : chars (gs.map r.glyph) = chars gs := by
  simp only [chars, map_map]
  rfl

end PlaceMap

/-- Two texts that are alike up to `tail` and `tail'`, where a line ends. Columns are the same in both. -/
structure TailSwap extends PlaceMap where
  stop : Position
  stop' : Position
  tail : List Glyph
  tail' : List Glyph
  columnOf_eq : ∀ n, columnOf n = n
  head_eq : tail'.head? = tail.head?.map toPlaceMap.glyph
  atLineEnd_tail : Glyph.atLineEnd tail = true
  stop_eq : tail = [] → stop' = toPlaceMap.position stop

/-- What is seen of a text from a place on its first line. -/
def Glyph.onLine (gs : List Glyph) : List Glyph :=
  (gs.takeWhile fun g => !g.isLineBreak).map fun g => plain g.char default

namespace TailSwap

open Glyph

variable {f : TailSwap} {g : Glyph} {gs : List Glyph}

/-- The same part of the other text. -/
def send (f : TailSwap) (gs : List Glyph) : List Glyph := (gs.take (gs.length - f.tail.length)).map f.glyph ++ f.tail'

/-- What is read there, `k` being the change of its value. -/
def read {α : Type} (f : TailSwap) (k : α → α) (r : Read α) : Read α := ⟨k r.value, r.notes.map f.note, f.send r.rest⟩

theorem send_append (f : TailSwap) (gs : List Glyph) : f.send (gs ++ f.tail) = gs.map f.glyph ++ f.tail' := by
  simp [send]

theorem send_tail (f : TailSwap) : f.send f.tail = f.tail' := f.send_append []

theorem send_cons (h : f.tail <:+ gs) (g : Glyph) : f.send (g :: gs) = f.glyph g :: f.send gs := by
  obtain ⟨before, rfl⟩ := h
  rw [← cons_append, send_append, send_append]
  rfl

/-- The tail begins no earlier than at the next line break. -/
theorem suffix_of_cons (h : f.tail <:+ g :: gs) (hg : ¬g.isLineBreak) : f.tail <:+ gs := by
  refine (suffix_cons_iff.mp h).resolve_left fun htail => hg ?_
  have hend := f.atLineEnd_tail
  rwa [htail] at hend

theorem exists_send_cons (h : f.tail <:+ g :: gs) :
    ∃ gs', f.send (g :: gs) = f.glyph g :: gs' ∧ (f.tail <:+ gs → gs' = f.send gs) ∧
      (f.tail = g :: gs → gs' = f.tail'.tail) := by
  rcases suffix_cons_iff.mp h with htail | htail
  · have hhead := f.head_eq
    rw [htail] at hhead
    obtain ⟨more, hmore⟩ := head?_eq_some_iff.mp hhead
    refine ⟨more, by rw [← htail, send_tail, hmore], fun hgs => ?_, fun _ => by rw [hmore]; rfl⟩
    have := hgs.length_le
    rw [htail, length_cons] at this
    omega
  · refine ⟨f.send gs, send_cons htail g, fun _ => rfl, fun heq => ?_⟩
    have := htail.length_le
    rw [heq, length_cons] at this
    omega

theorem head?_send (h : f.tail <:+ gs) : (f.send gs).head? = gs.head?.map f.glyph := by
  cases gs with
  | nil =>
    rw [← suffix_nil.mp h, send_tail]
    exact f.head_eq
  | cons g gs =>
    obtain ⟨gs', hsend, -⟩ := exists_send_cons h
    rw [hsend]
    rfl

theorem send_nil (h : f.tail <:+ []) : f.send [] = [] := head?_eq_none_iff.mp (head?_send h)

theorem isEmpty_send (h : f.tail <:+ gs) : (f.send gs).isEmpty = gs.isEmpty := by
  cases gs with
  | nil => rw [send_nil h]
  | cons g gs =>
    obtain ⟨gs', hsend, -⟩ := exists_send_cons h
    rw [hsend]
    rfl

theorem here_send (h : f.tail <:+ gs) : here f.stop' (f.send gs) = f.position (here f.stop gs) := by
  cases gs with
  | nil =>
    rw [send_nil h]
    exact f.stop_eq (suffix_nil.mp h)
  | cons g gs =>
    obtain ⟨gs', hsend, -⟩ := exists_send_cons h
    rw [hsend]
    rfl

theorem drop_send {n : Nat} (h : f.tail <:+ gs.drop n) : (f.send gs).drop n = f.send (gs.drop n) := by
  induction n generalizing gs with
  | zero => rfl
  | succ n ih =>
    cases gs with
    | nil =>
      rw [drop_nil] at h ⊢
      rw [send_nil h, drop_nil]
    | cons g gs =>
      rw [send_cons (h.trans (drop_suffix n gs)), drop_succ_cons, drop_succ_cons, ih h]

section

variable {p : Glyph → Bool} (hp : ∀ g, p (f.glyph g) = p g) (hbreak : ∀ g, g.isLineBreak → p g = false)

include hp hbreak

theorem span_send (h : f.tail <:+ gs) : f.tail <:+ gs.dropWhile p ∧
    (f.send gs).dropWhile p = f.send (gs.dropWhile p) ∧ (f.send gs).takeWhile p = (gs.takeWhile p).map f.glyph := by
  induction gs with
  | nil =>
    rw [send_nil h]
    exact ⟨h, (send_nil h).symm, rfl⟩
  | cons g gs ih =>
    obtain ⟨gs', hsend, hrest, -⟩ := exists_send_cons h
    cases hg : p g with
    | false =>
      rw [dropWhile_cons_of_neg (by simp [hg]), takeWhile_cons_of_neg (by simp [hg]), hsend,
        dropWhile_cons_of_neg (by simp [hp, hg]), takeWhile_cons_of_neg (by simp [hp, hg])]
      exact ⟨h, rfl, rfl⟩
    | true =>
      have htail := suffix_of_cons h fun hend => by
        rw [hbreak g hend] at hg
        cases hg
      obtain ⟨hsuffix, hdrop, htake⟩ := ih htail
      rw [dropWhile_cons_of_pos hg, takeWhile_cons_of_pos hg, hsend, hrest htail,
        dropWhile_cons_of_pos (by rw [hp, hg]), takeWhile_cons_of_pos (by rw [hp, hg]), htake]
      exact ⟨hsuffix, hdrop, rfl⟩

end

theorem takeLine_send (h : f.tail <:+ gs) :
    (f.send gs).takeWhile (fun g => !g.isLineBreak) = (gs.takeWhile fun g => !g.isLineBreak).map f.glyph :=
  (span_send (fun g => by rw [f.glyph_isLineBreak]) (fun _ hg => by rw [hg]; rfl) h).2.2

theorem dropLine_send (h : f.tail <:+ gs) : f.tail <:+ dropLine gs ∧ dropLine (f.send gs) = f.send (dropLine gs) :=
  (span_send (fun g => by rw [f.glyph_isLineBreak]) (fun _ hg => by rw [hg]; rfl) h).imp_right And.left

theorem isBlank_of_isLineBreak (g : Glyph) (h : g.isLineBreak) : g.isBlank = false := by
  simp only [isLineBreak, Text.isLineBreak, Bool.or_eq_true, beq_iff_eq] at h
  rcases h with h | h <;> simp [isBlank, Text.isBlank, h]

theorem dropBlanks_send (h : f.tail <:+ gs) :
    f.tail <:+ dropBlanks gs ∧ dropBlanks (f.send gs) = f.send (dropBlanks gs) :=
  (span_send f.glyph_isBlank isBlank_of_isLineBreak h).imp_right And.left

/-- What is seen on the line alone is the same in both texts. -/
theorem eq_of_onLine {α : Type} {F : List Glyph → α} (hF : ∀ gs, F gs = F (onLine gs)) (h : f.tail <:+ gs) :
    F (f.send gs) = F gs := by
  rw [hF, hF gs, onLine, onLine, takeLine_send h, map_map]
  rfl

/-- No value goes on behind the place where the texts part. -/
def Halts (f : TailSwap) (margin : Line.Margin) : Prop := f.tail ≠ [] → margin.continues f.tail'.tail = false

/-- No quote is missing before that place. -/
def Closes (f : TailSwap) (notes : List Note) : Prop := f.tail ≠ [] → ∀ note ∈ notes, note.code ≠ .missingClosingQuote

/-- Both texts break where `stops` says so, if it looks at nothing but the line. -/
theorem breakAt_send {stops : List Glyph → Bool} (hstops : ∀ gs, stops gs = stops (onLine gs))
    (h : f.tail <:+ (breakAt stops gs).2) :
    breakAt stops (f.send gs) = (breakAt stops gs).map (List.map f.glyph) f.send := by
  induction gs with
  | nil =>
    rw [send_nil h]
    exact Prod.ext rfl (send_nil h).symm
  | cons g gs ih =>
    have hsame := eq_of_onLine hstops (h.trans (breakAt_suffix stops (g :: gs)))
    simp only [breakAt] at h ⊢
    split at h
    · rename_i hstop
      obtain ⟨gs', hsend, -⟩ := exists_send_cons h
      rw [hsend] at hsame ⊢
      rw [breakAt, if_pos (hsame.trans hstop), if_pos hstop, ← hsend]
      rfl
    · rename_i hstop
      rw [send_cons (h.trans (breakAt_suffix stops gs))] at hsame ⊢
      rw [breakAt, if_neg (by rwa [hsame]), if_neg hstop, ih h]
      rfl

end TailSwap

namespace Line

open Glyph TailSwap PlaceMap

variable (start : Position) (inGroup : Bool) (g : Glyph) (r : PlaceMap) (gs : List Glyph) (layout : Layout)
  {c : Char} {α : Type}

theorem onLine_cons : onLine (g :: gs) = if g.isLineBreak then [] else plain g.char default :: onLine gs := by
  cases h : g.isLineBreak <;> simp [onLine, h]

theorem upToBreak_onLine (n : Nat) :
    Text.upToBreak (chars ((onLine gs).take n)) = Text.upToBreak (chars (gs.take n)) := by
  induction n generalizing gs with
  | zero => rfl
  | succ n ih =>
    cases gs with
    | nil => rfl
    | cons g gs =>
      rw [onLine_cons]
      cases hg : g.isLineBreak with
      | true => simp [chars, Text.upToBreak_cons, ← isLineBreak_char, hg]
      | false => simpa [chars, Text.upToBreak_cons, plain, ← isLineBreak_char, hg] using ih gs

/-- A test of what is written ahead that looks no further than the line. -/
theorem look_onLine {look : List Char → α} (hlook : ∀ text, look (Text.upToBreak text) = look text) (n : Nat)
    (gs : List Glyph) : look (raw n gs) = look (raw n (onLine gs)) := by
  rw [look_raw hlook, look_raw hlook, ← hlook, ← upToBreak_onLine, hlook]

theorem atComment_onLine : atComment gs = atComment (onLine gs) := look_onLine isCommentMark_upToBreak 3 gs

theorem atBlockEnd_onLine : atBlockEnd gs = atBlockEnd (onLine gs) := look_onLine isBlockEnd_upToBreak 3 gs

theorem endsReference_onLine : endsReference gs = endsReference (onLine gs) := look_onLine isReferenceEnd_upToBreak 2 gs

theorem referenceInText_onLine : referenceInText gs = referenceInText (onLine gs) :=
  look_onLine isReferenceStart_upToBreak 2 gs

theorem codeUnit?_onLine : codeUnit? gs = codeUnit? (onLine gs) := look_onLine hexUnit?_upToBreak 4 gs

theorem escapedLowSurrogate?_onLine : escapedLowSurrogate? gs = escapedLowSurrogate? (onLine gs) :=
  look_onLine lowSurrogate?_upToBreak 6 gs

theorem atLineEnd_onLine : atLineEnd gs = atLineEnd (onLine gs) := by
  rcases gs with _ | ⟨a, gs⟩
  · rfl
  · rw [onLine_cons]
    split
    all_goals simp_all [atLineEnd, isLineBreak_char, plain]

theorem endsName_onLine : endsName gs = endsName (onLine gs) := by
  rcases gs with _ | ⟨a, gs⟩
  · rfl
  · rw [onLine_cons]
    split
    all_goals simp_all [endsName, isLineBreak_char, plain]

theorem endsOpenString_onLine : endsOpenString inGroup gs = endsOpenString inGroup (onLine gs) := by
  have hcomment := atComment_onLine gs
  rcases gs with _ | ⟨a, gs⟩
  · rfl
  · rw [onLine_cons] at hcomment ⊢
    split
    all_goals simp_all [endsOpenString, isLineBreak_char, plain]

theorem indent_onLine : Indent.of gs = Indent.of (onLine gs) := by
  have htake : ((onLine gs).takeWhile isBlank).map (·.char) = (gs.takeWhile isBlank).map (·.char) := by
    induction gs with
    | nil => rfl
    | cons g gs ih =>
      cases hbreak : g.isLineBreak with
      | true => simp [onLine_cons, hbreak, TailSwap.isBlank_of_isLineBreak g hbreak]
      | false => cases hblank : g.isBlank <;> simp_all [onLine_cons, isBlank_char, plain]
  have hany : ∀ c, ((onLine gs).takeWhile isBlank).any (·.char == c) = (gs.takeWhile isBlank).any (·.char == c) := by
    intro c
    have hchars := congrArg (List.any · (· == c)) htake
    simp only [any_map] at hchars
    exact hchars
  have hlength := congrArg List.length htake
  simp only [length_map] at hlength
  simp only [Indent.of, hany, hlength]

variable {f : TailSwap} {gs rest : List Glyph}

theorem readComment_send (h : f.tail <:+ (readComment f.stop gs).2) :
    readComment f.stop' (f.send gs) = (readComment f.stop gs).map f.comment f.send := by
  have hbody := h.trans (readComment_suffix f.stop gs)
  have hgs := hbody.trans (drop_suffix 3 gs)
  have hquote : (f.send gs).head?.any (·.char == '"') = gs.head?.any (·.char == '"') := by
    rw [head?_send hgs]
    cases gs <;> rfl
  unfold readComment at h ⊢
  rw [hquote, drop_send hbody]
  cases hblock : gs.head?.any (·.char == '"') with
  | true =>
    simp only [hblock, if_true] at h ⊢
    have hafter := h.trans (drop_suffix 3 _)
    simp only [breakAt_send atBlockEnd_onLine hafter, Prod.map, f.chars_map_glyph, drop_send h, here_send hgs,
      here_send h, isEmpty_send hafter]
    rfl
  | false =>
    simp only [hblock, Bool.false_eq_true, if_false] at h ⊢
    simp only [breakAt_send atLineEnd_onLine h, Prod.map, f.chars_map_glyph, here_send hgs, here_send h,
      isEmpty_send h]
    rfl

theorem readComments_send (h : f.tail <:+ (readComments f.stop gs).2) :
    readComments f.stop' (f.send gs) = (readComments f.stop gs).map (List.map f.comment) f.send := by
  have hsame := eq_of_onLine atComment_onLine (h.trans (readComments_suffix f.stop gs))
  fun_induction readComments f.stop gs with
  | case1 gs hcomment _ _ first more ih =>
    have hblanks := h.trans (readComments_suffix f.stop _)
    have hfirst := hblanks.trans (dropBlanks_suffix _)
    rw [readComments, dif_pos (hsame.trans hcomment)]
    dsimp only
    rw [readComment_send hfirst, Prod.map_snd, (dropBlanks_send hfirst).2, ih h (eq_of_onLine atComment_onLine hblanks)]
    rfl
  | case2 gs hcomment =>
    rw [readComments, dif_neg (by rwa [hsame])]
    rfl

theorem readUnicodeEscape_send (h : f.tail <:+ (readUnicodeEscape f.stop start gs).rest) :
    readUnicodeEscape f.stop' (f.position start) (f.send gs) = f.read id (readUnicodeEscape f.stop start gs) := by
  have hgs := h.trans (readUnicodeEscape_suffix f.stop start gs)
  have hunpaired : ∀ unit {rest}, f.tail <:+ rest →
      readUnicodeEscape.unpaired f.stop' (f.position start) unit (f.send rest) =
        f.read id (readUnicodeEscape.unpaired f.stop start unit rest) := by
    intro unit rest hrest
    simp only [readUnicodeEscape.unpaired, here_send hrest]
    rfl
  revert h
  unfold readUnicodeEscape
  rw [eq_of_onLine codeUnit?_onLine hgs]
  cases codeUnit? gs with
  | none =>
    simp only [here_send hgs]
    exact fun _ => rfl
  | some unit =>
    dsimp only
    split
    · cases hlow : escapedLowSurrogate? (gs.drop 4) with
      | some low =>
        intro h
        have hrest := h.trans (drop_suffix 6 _)
        simp only [drop_send hrest, eq_of_onLine escapedLowSurrogate?_onLine hrest, hlow, drop_send h]
        rfl
      | none =>
        intro h
        have hrest : f.tail <:+ gs.drop 4 := h
        simp only [drop_send hrest, eq_of_onLine escapedLowSurrogate?_onLine hrest, hlow]
        exact hunpaired unit hrest
    · split
      · intro h
        rw [drop_send h]
        exact hunpaired unit h
      · intro h
        rw [drop_send h]
        rfl

theorem readEscape_send (h : f.tail <:+ (readEscape f.stop start gs).rest) :
    readEscape f.stop' (f.position start) (f.send gs) = f.read id (readEscape f.stop start gs) := by
  have hgs := h.trans (readEscape_suffix f.stop start gs)
  cases gs with
  | nil =>
    simp only [send_nil hgs, readEscape, f.stop_eq (suffix_nil.mp hgs), TailSwap.read]
    rfl
  | cons g rest =>
    obtain ⟨gs', hsend, hrest, -⟩ := exists_send_cons hgs
    revert h
    rw [hsend, readEscape, readEscape, f.glyph_char, f.glyph_isLineBreak]
    cases simpleEscape? g.char with
    | some c =>
      intro h
      rw [hrest h]
      rfl
    | none =>
      dsimp only
      split
      · intro h
        rw [hrest (h.trans (readUnicodeEscape_suffix f.stop start rest)), readUnicodeEscape_send start h]
      · split
        · intro h
          rw [← hsend]
          rfl
        · intro h
          rw [hrest h, here_send h]
          rfl

theorem readSigil_send (h : f.tail <:+ (readSigil gs).2) : readSigil (f.send gs) = (readSigil gs).map id f.send := by
  have hsame := eq_of_onLine (look_onLine sigilOf_upToBreak 2) (h.trans (readSigil_suffix gs))
  simp only [readSigil] at h ⊢
  rw [hsame, drop_send h]
  rfl

theorem readDelimiter_send (h : f.tail <:+ (readDelimiter gs).2) :
    readDelimiter (f.send gs) = (readDelimiter gs).map id f.send := by
  have hsame := eq_of_onLine (look_onLine delimiterOf_upToBreak 2) (h.trans (readDelimiter_suffix gs))
  simp only [readDelimiter] at h ⊢
  rw [hsame, drop_send h]
  rfl

theorem readBareName_send (h : f.tail <:+ (readBareName f.stop gs).2) :
    readBareName f.stop' (f.send gs) = (readBareName f.stop gs).map (Option.map f.name) f.send := by
  have hgs := h.trans (readBareName_suffix f.stop gs)
  have hafter : f.tail <:+ (breakAt endsName gs).2 := by
    simp only [readBareName] at h
    split at h <;> exact h
  have hdrop := hafter.trans (breakAt_endsName_suffix gs)
  simp only [readBareName, breakAt_send endsName_onLine hafter, Prod.map, f.chars_map_glyph, drop_send hdrop,
    here_send hgs, here_send hdrop]
  split <;> rfl

theorem readQuotedText_send (quote : Char) (h : f.tail <:+ (readQuotedText f.stop start quote gs).rest) :
    readQuotedText f.stop' (f.position start) quote (f.send gs) = f.read id (readQuotedText f.stop start quote gs) := by
  have hsuffix := readQuotedText_suffix f.stop start quote
  fun_induction readQuotedText f.stop start quote gs with
  | case1 =>
    rw [send_nil h, readQuotedText, f.stop_eq (suffix_nil.mp h), TailSwap.read, send_nil h]
    rfl
  | case2 g rest hbreak =>
    obtain ⟨gs', hsend, -⟩ := exists_send_cons h
    rw [hsend, readQuotedText, f.glyph_isLineBreak, if_pos hbreak, ← hsend]
    rfl
  | case3 g rest hbreak hquote =>
    rw [send_cons h, readQuotedText, f.glyph_isLineBreak, if_neg hbreak, f.glyph_char, if_pos hquote]
    rfl
  | case4 g rest hbreak hquote hescape _ escape more ih =>
    have hmore := h.trans (hsuffix _)
    rw [send_cons (hmore.trans (readEscape_suffix f.stop g.position rest)), readQuotedText, f.glyph_isLineBreak,
      if_neg hbreak, f.glyph_char, if_neg hquote, if_pos hescape]
    dsimp only
    rw [f.glyph_position, readEscape_send g.position hmore, TailSwap.read, ih h]
    simp only [TailSwap.read, map_append]
    rfl
  | case5 g rest hbreak hquote hescape more ih =>
    rw [send_cons (h.trans (hsuffix _)), readQuotedText, f.glyph_isLineBreak, if_neg hbreak, f.glyph_char,
      if_neg hquote, if_neg hescape, ih h]
    rfl

theorem readName_send (h : f.tail <:+ (readName f.stop gs).rest) :
    readName f.stop' (f.send gs) = f.read (Option.map f.name) (readName f.stop gs) := by
  have hgs := h.trans (readName_suffix f.stop gs)
  have hcomment := eq_of_onLine atComment_onLine hgs
  cases gs with
  | nil =>
    simp only [send_nil hgs, readName, TailSwap.read]
    rfl
  | cons g rest =>
    obtain ⟨gs', hsend, hrest, -⟩ := exists_send_cons hgs
    revert h
    rw [hsend] at hcomment
    rw [hsend, readName, readName, hcomment, f.glyph_char, f.glyph_position, ← hsend]
    split
    · exact fun _ => rfl
    · split
      · intro h
        rw [hrest (h.trans (readQuotedText_suffix ..)), readQuotedText_send g.position g.char h]
        simp only [TailSwap.read, here_send h]
        rfl
      · intro h
        rw [readBareName_send h]
        rfl

theorem length_send (h : f.tail <:+ gs) : (f.send gs).length + f.tail.length = gs.length + f.tail'.length := by
  obtain ⟨before, rfl⟩ := h
  rw [send_append]
  simp only [length_append, length_map]
  omega

theorem referenceAhead_eq (gs : List Glyph) : referenceAhead inGroup (g :: gs) =
      if g.char = '$' && (gs.dropWhile fun g => isReferenceChar g.char).length = gs.length then false
      else endsOpenString inGroup (dropBlanks (gs.dropWhile fun g => isReferenceChar g.char)) := by
  rw [referenceAhead]
  cases dropBlanks (gs.dropWhile fun g => isReferenceChar g.char) <;> rfl

theorem referenceAhead_send (h : f.tail <:+ gs) :
    referenceAhead inGroup (f.glyph g :: f.send gs) = referenceAhead inGroup (g :: gs) := by
  obtain ⟨hafter, hdrop, -⟩ := span_send (f := f) (p := fun g => isReferenceChar g.char) (fun _ => rfl)
    (fun g hg => isReferenceChar_of_isLineBreak (isLineBreak_char g ▸ hg)) h
  obtain ⟨hblanks, hsend⟩ := dropBlanks_send hafter
  have hlength := length_send h
  have hlength' := length_send hafter
  have hsame : (f.send (gs.dropWhile fun g => isReferenceChar g.char)).length = (f.send gs).length ↔
      (gs.dropWhile fun g => isReferenceChar g.char).length = gs.length := by
    omega
  simp only [referenceAhead_eq, hdrop, hsend, eq_of_onLine (endsOpenString_onLine inGroup) hblanks, f.glyph_char,
    hsame]
  rfl

theorem readReference_send (h : f.tail <:+ (readReference f.stop (g :: gs)).2) :
    readReference f.stop' (f.glyph g :: f.send gs) = (readReference f.stop (g :: gs)).map f.reference f.send := by
  have hgs := h.trans (breakAt_suffix endsReference gs)
  have hafter : f.tail <:+ (breakAt endsReference gs).2 := h
  simp only [readReference, breakAt_send endsReference_onLine hafter, Prod.map, isEmpty_map, f.chars_map_glyph,
    here_send hgs, here_send hafter, PlaceMap.reference, apply_ite (Option.map f.name)]
  rfl

theorem check_send (margin : Margin) (h : f.tail <:+ gs) :
    margin.check f.stop' (f.send gs) = (margin.check f.stop gs).map f.note := by
  obtain ⟨hblanks, hsend⟩ := dropBlanks_send h
  simp only [Margin.check, eq_of_onLine indent_onLine h, hsend, eq_of_onLine atLineEnd_onLine hblanks, here_send h,
    here_send hblanks]
  split
  · rfl
  · split <;> rfl

theorem continues_send (margin : Margin) (h : f.tail <:+ gs) :
    margin.continues (f.send gs) = margin.continues gs := by
  obtain ⟨hblanks, hsend⟩ := dropBlanks_send h
  simp only [Margin.continues, hsend, eq_of_onLine atLineEnd_onLine hblanks, eq_of_onLine indent_onLine h]

variable {margin : Margin}

section

variable (hhalts : f.Halts margin)

include hhalts

theorem readFurtherLines_send {strip : Option Nat} (h : f.tail <:+ (readFurtherLines f.stop margin strip gs).rest) :
    readFurtherLines f.stop' margin strip (f.send gs) = f.read id (readFurtherLines f.stop margin strip gs) := by
  fun_induction readFurtherLines f.stop margin strip gs with
  | case1 =>
    simp only [send_nil h, readFurtherLines, TailSwap.read]
    rfl
  | case2 strip g next hcontinues width strip' body line more ih =>
    have hbody : f.tail <:+ next.drop (min (strip.getD (Indent.of next).width) (Indent.of next).width) :=
      (h.trans (readFurtherLines_suffix f.stop margin _ _)).trans (dropLine_suffix body)
    have hnext := hbody.trans (drop_suffix _ next)
    rw [send_cons hnext, readFurtherLines, f.glyph_isLineBreak, continues_send margin hnext, if_pos hcontinues]
    simp only [eq_of_onLine indent_onLine hnext, drop_send hbody, takeLine_send hbody, f.chars_map_glyph,
      (dropLine_send hbody).2, check_send margin hnext]
    rw [ih h]
    simp only [TailSwap.read, map_append]
    rfl
  | case3 strip g next hcontinues =>
    obtain ⟨gs', hsend, hrest, htail⟩ := exists_send_cons h
    have hover : ¬(g.isLineBreak && margin.continues gs') := by
      rcases suffix_cons_iff.mp h with heq | hnext
      · rw [htail heq, hhalts (heq ▸ cons_ne_nil g next), Bool.and_false]
        exact Bool.false_ne_true
      · rwa [hrest hnext, continues_send margin hnext]
    rw [hsend, readFurtherLines, f.glyph_isLineBreak, if_neg hover, ← hsend]
    rfl

theorem readFolded_send (first : List (List Char)) (otherwise : Value)
    (h : f.tail <:+ (readFolded f.stop margin first otherwise gs).rest) :
    readFolded f.stop' margin first (f.value otherwise) (f.send gs) =
      f.read f.value (readFolded f.stop margin first otherwise gs) := by
  have hnone : (readFurtherLines f.stop margin none gs).value.isEmpty = true →
      (readFurtherLines f.stop margin none gs).rest = gs := by
    intro hempty
    cases gs with
    | nil => rw [readFurtherLines]
    | cons g next =>
      rw [readFurtherLines] at hempty ⊢
      split at hempty
      · cases hempty
      · rw [if_neg ‹_›]
  simp only [readFolded] at h ⊢
  cases hempty : (readFurtherLines f.stop margin none gs).value.isEmpty with
  | true =>
    rw [readFurtherLines_send hhalts (by rw [hnone hempty]; simpa only [hempty, if_true] using h)]
    simp only [TailSwap.read, id, hempty, if_true]
    rfl
  | false =>
    simp only [hempty, Bool.false_eq_true, if_false] at h ⊢
    simp only [readFurtherLines_send hhalts h, TailSwap.read, id, hempty, Bool.false_eq_true, if_false]
    rfl

theorem readOpenString_send (inGroup : Bool) (h : f.tail <:+ (readOpenString f.stop margin inGroup gs).rest) :
    readOpenString f.stop' margin inGroup (f.send gs) = f.read f.value (readOpenString f.stop margin inGroup gs) := by
  have hvalue : ∀ text : List Char, f.value (if text.isEmpty then .text "" .empty else .bare (String.ofList text)) =
      if text.isEmpty then .text "" .empty else .bare (String.ofList text) := by
    intro text
    split <;> rfl
  have hafter : f.tail <:+ (breakAt (endsOpenString inGroup) gs).2 := by
    simp only [readOpenString] at h
    split at h
    · exact h.trans (readFolded_suffix ..)
    · exact h
  simp only [readOpenString] at h
  simp only [readOpenString, breakAt_send (endsOpenString_onLine inGroup) hafter, Prod.map, f.chars_map_glyph,
    eq_of_onLine atLineEnd_onLine hafter]
  cases hend : atLineEnd (breakAt (endsOpenString inGroup) gs).2 with
  | true =>
    simp only [hend, if_true] at h ⊢
    rw [← readFolded_send hhalts _ _ h, hvalue]
  | false =>
    simp only [Bool.false_eq_true, if_false, TailSwap.read, hvalue]
    rfl

theorem readFreeString_send (h : f.tail <:+ (readFreeString f.stop margin gs).rest) :
    readFreeString f.stop' margin (f.send gs) = f.read f.value (readFreeString f.stop margin gs) := by
  have hline := h.trans (readFurtherLines_suffix f.stop margin none _)
  have hbody := hline.trans (dropLine_suffix _)
  obtain ⟨-, hblanks⟩ := dropBlanks_send (hbody.trans (dropBlanks_suffix gs))
  simp only [readFreeString, hblanks, takeLine_send hbody, f.chars_map_glyph, (dropLine_send hbody).2,
    readFurtherLines_send hhalts h]
  rfl

end

theorem dropUpToColumn_send (column : Nat) (h : f.tail <:+ gs) :
    dropUpToColumn column (f.send gs) = f.send (dropUpToColumn column gs) := by
  refine (span_send (fun g => ?_) (fun g hg => ?_) h).2.1
  · rw [f.glyph_isBlank]
    change (g.isBlank && decide (f.columnOf g.position.column ≤ column)) = _
    rw [f.columnOf_eq]
  · rw [isBlank_of_isLineBreak g hg, Bool.false_and]

theorem readPieces_send {start : Position} {quote : Char}
    (hcloses : f.Closes (readPieces f.stop margin start quote gs).notes)
    (h : f.tail <:+ (readPieces f.stop margin start quote gs).rest) :
    readPieces f.stop' margin (f.position start) quote (f.send gs) =
      f.read (List.map f.piece) (readPieces f.stop margin start quote gs) := by
  have hsuffix := readPieces_suffix f.stop margin start quote
  fun_induction readPieces f.stop margin start quote gs with
  | case1 =>
    rw [send_nil h, readPieces, f.stop_eq (suffix_nil.mp h), TailSwap.read, send_nil h]
    rfl
  | case2 g rest hquote =>
    rw [send_cons h, readPieces, f.glyph_char, if_pos hquote]
    rfl
  | case3 g rest hquote hbreak hcontinues _ more ih =>
    have hmore := h.trans (hsuffix _)
    have hrest := hmore.trans (dropUpToColumn_suffix _ rest)
    obtain ⟨hblanks, hsend⟩ := dropBlanks_send hrest
    rw [send_cons hrest, readPieces, f.glyph_char, if_neg hquote, f.glyph_isLineBreak, if_pos hbreak, hsend,
      eq_of_onLine atLineEnd_onLine hblanks, continues_send margin hrest, if_pos hcontinues]
    dsimp only
    have hcolumn : (f.position start).column = start.column := f.columnOf_eq _
    rw [hcolumn, dropUpToColumn_send _ hrest, check_send margin hrest,
      ih (fun hne note hnote => hcloses hne note (mem_append_right _ hnote)) h]
    simp only [TailSwap.read, map_append]
    rfl
  | case4 g rest hquote hbreak hcontinues =>
    have hrest : f.tail <:+ rest := by
      refine (suffix_cons_iff.mp h).resolve_left fun htail => ?_
      exact hcloses (htail ▸ cons_ne_nil g rest) _ (mem_singleton_self _) rfl
    obtain ⟨hblanks, hsend⟩ := dropBlanks_send hrest
    rw [send_cons hrest, readPieces, f.glyph_char, if_neg hquote, f.glyph_isLineBreak, if_pos hbreak, hsend,
      eq_of_onLine atLineEnd_onLine hblanks, continues_send margin hrest, if_neg hcontinues, ← send_cons hrest]
    rfl
  | case5 g rest hquote hbreak hescape _ escape more ih =>
    have hmore := h.trans (hsuffix _)
    rw [send_cons (hmore.trans (readEscape_suffix f.stop g.position rest)), readPieces, f.glyph_char, if_neg hquote,
      f.glyph_isLineBreak, if_neg hbreak, if_pos hescape]
    dsimp only
    rw [f.glyph_position, readEscape_send g.position hmore, TailSwap.read,
      ih (fun hne note hnote => hcloses hne note (mem_append_right _ hnote)) h]
    simp only [TailSwap.read, map_append, map_map]
    rfl
  | case6 g rest hquote hbreak hescape hreference _ reference more ih =>
    have hmore := h.trans (hsuffix _)
    have hrest := hmore.trans (breakAt_suffix endsReference rest)
    have hahead := eq_of_onLine referenceInText_onLine (hrest.trans (suffix_cons g rest))
    rw [send_cons hrest] at hahead ⊢
    rw [readPieces, f.glyph_char, if_neg hquote, f.glyph_isLineBreak, if_neg hbreak, if_neg hescape, hahead,
      if_pos hreference]
    dsimp only
    rw [readReference_send g hmore, Prod.map_snd, ih hcloses h]
    rfl
  | case7 g rest hquote hbreak hescape hreference more ih =>
    have hrest := h.trans (hsuffix _)
    have hahead := eq_of_onLine referenceInText_onLine (hrest.trans (suffix_cons g rest))
    rw [send_cons hrest] at hahead ⊢
    rw [readPieces, f.glyph_char, if_neg hquote, f.glyph_isLineBreak, if_neg hbreak, if_neg hescape, hahead,
      if_neg hreference, ih hcloses h]
    rfl

theorem segments_moved (stop start : Position) (literal : List Char) (pieces : List Piece) :
    segments (r.position stop) (r.position start) literal (pieces.map r.piece) =
      (segments stop start literal pieces).map r.segment := by
  have htext : ∀ start stop : Position, ∀ literal, segments.textSegment (r.position start) (r.position stop) literal =
      (segments.textSegment start stop literal).map r.segment := by
    intro start stop literal
    unfold segments.textSegment
    split <;> rfl
  induction pieces generalizing start literal with
  | nil => exact htext start stop literal
  | cons piece pieces ih =>
    cases piece with
    | char c => exact ih start (c :: literal)
    | reference head =>
      simp only [segments, map_append, map_cons]
      rw [← htext, ← ih]
      rfl

theorem readQuoted_send {g : Glyph} (hcloses : f.Closes (readQuoted f.stop margin g gs).notes)
    (h : f.tail <:+ (readQuoted f.stop margin g gs).rest) :
    readQuoted f.stop' margin (f.glyph g) (f.send gs) = f.read f.value (readQuoted f.stop margin g gs) := by
  have hreference : Piece.isReference ∘ f.piece = Piece.isReference := by
    funext piece
    cases piece <;> rfl
  have hchar : Piece.char? ∘ f.piece = Piece.char? := by
    funext piece
    cases piece <;> rfl
  have hpieces : f.tail <:+ (readPieces f.stop margin g.position g.char gs).rest := h
  have hgs := hpieces.trans (readPieces_suffix ..)
  simp only [readQuoted, f.glyph_position, f.glyph_char, readPieces_send hcloses hpieces, TailSwap.read, any_map,
    hreference, filterMap_map, hchar, here_send hpieces, here_send hgs, segments_moved]
  split <;> rfl

theorem readValue_send (hhalts : f.Halts margin) {inGroup : Bool}
    (hcloses : f.Closes (readValue f.stop margin inGroup gs).notes)
    (h : f.tail <:+ (readValue f.stop margin inGroup gs).rest) :
    readValue f.stop' margin inGroup (f.send gs) = f.read f.value (readValue f.stop margin inGroup gs) := by
  obtain ⟨hblanks, hsend⟩ := dropBlanks_send (h.trans (readValue_suffix f.stop margin inGroup gs))
  unfold readValue at hcloses h ⊢
  rw [hsend]
  cases hbody : dropBlanks gs with
  | nil =>
    rw [hbody] at hblanks
    simp only [send_nil hblanks, TailSwap.read]
    rfl
  | cons g rest =>
    rw [hbody] at hblanks hcloses h
    have hcomment := eq_of_onLine atComment_onLine hblanks
    obtain ⟨gs', hcons, hrest, -⟩ := exists_send_cons hblanks
    revert hcloses h
    rw [hcons] at hcomment ⊢
    dsimp only
    rw [f.glyph_isLineBreak, hcomment, f.glyph_char, ← hcons]
    split
    · exact fun h _ => readFolded_send hhalts [] (.text "" .empty) h
    · rename_i hbreak
      have hrest := hrest (suffix_of_cons hblanks hbreak)
      rw [hcons, hrest, referenceAhead_send inGroup g (suffix_of_cons hblanks hbreak), ← hrest, ← hcons]
      split
      · exact fun _ _ => rfl
      · split
        · exact fun h hcloses => hrest ▸ readQuoted_send hcloses h
        · split
          · intro h _
            rw [hcons, hrest, readReference_send g h]
            rfl
          · exact fun h _ => readOpenString_send hhalts inGroup h

@[simp] theorem isVacant_moved (head : Head) : isVacant (r.head head) = isVacant head := by
  cases head with
  | mk sigil name delimiter span => cases name <;> rfl

theorem readHead_send (h : f.tail <:+ (readHead f.stop gs).rest) :
    readHead f.stop' (f.send gs) = f.read f.head (readHead f.stop gs) := by
  have hdelimiter : f.tail <:+ (readDelimiter (dropBlanks (readName f.stop (readSigil gs).2).rest)).2 := h
  have hblanks := hdelimiter.trans (readDelimiter_suffix _)
  have hname := hblanks.trans (dropBlanks_suffix _)
  have hsigil := hname.trans (readName_suffix f.stop _)
  have hgs := hsigil.trans (readSigil_suffix gs)
  simp only [readHead, readSigil_send hsigil, Prod.map_fst, Prod.map_snd, readName_send hname, TailSwap.read,
    (dropBlanks_send hname).2, readDelimiter_send hdelimiter, here_send hgs, here_send hdelimiter]
  rfl

theorem readBody_send (hhalts : f.Halts margin) {inGroup : Bool} {head : Head}
    (hcloses : f.Closes (readBody f.stop margin inGroup head gs).1.notes)
    (h : f.tail <:+ (readBody f.stop margin inGroup head gs).2) :
    readBody f.stop' margin inGroup (f.head head) (f.send gs) =
      (readBody f.stop margin inGroup head gs).map f.pairItem f.send := by
  have hgs := h.trans (readBody_suffix f.stop margin inGroup head gs)
  have hgroup : (dropBlanks (f.send gs)).head?.any (·.char == '(') = (dropBlanks gs).head?.any (·.char == '(') := by
    obtain ⟨hblanks, hsend⟩ := dropBlanks_send hgs
    rw [hsend, head?_send hblanks]
    cases dropBlanks gs <;> rfl
  have hfound : readAnnounced f.stop' margin inGroup (f.send gs) head.delimiter =
      (readAnnounced f.stop margin inGroup gs head.delimiter).map (f.read f.value) := by
    change f.Closes ((readAnnounced f.stop margin inGroup gs head.delimiter).elim [] (·.notes)) at hcloses
    change f.tail <:+ (readAnnounced f.stop margin inGroup gs head.delimiter).elim gs (·.rest) at h
    generalize head.delimiter = delimiter at hcloses h ⊢
    cases delimiter with
    | equal => exact congrArg some (readValue_send hhalts hcloses h)
    | doubleEqual => exact congrArg some (readFreeString_send hhalts h)
    | _ => rfl
  have hsent : ∀ found : Option (Read Value),
      (found.map (f.read f.value)).map (·.value) = (found.map (·.value)).map f.value ∧
      (found.map (f.read f.value)).elim [] (·.notes) = (found.elim [] (·.notes)).map f.note ∧
      (found.map (f.read f.value)).elim (f.send gs) (·.rest) = f.send (found.elim gs (·.rest)) := by
    rintro (_ | value) <;> exact ⟨rfl, rfl, rfl⟩
  obtain ⟨hvalue, hnotes, hrest⟩ := hsent (readAnnounced f.stop margin inGroup gs head.delimiter)
  rw [← hfound] at hvalue hnotes hrest
  refine Prod.ext (PairItem.ext rfl hvalue hnotes ?_ ?_) hrest
  · exact (congrArg (here f.stop') hrest).trans (here_send h)
  · exact congrArg (head.delimiter == .none && ·) hgroup

theorem unclosed_moved (groups : List Position) :
    unclosed (groups.map r.position) = (unclosed groups).map r.item := by
  simp only [unclosed, map_map]
  rfl

theorem unexpected_moved (found : Option Char) (position : Position) :
    unexpected (found.map r.shownOf) (r.position position) = r.item (unexpected found position) := by
  cases found with
  | none => rfl
  | some c => simp [unexpected, item, note, text, PlaceMap.span, Span.point]

theorem isComplete_moved (item : PairItem) : isComplete (r.pairItem item) = isComplete item := rfl

theorem readItems_send (hhalts : f.Halts margin) {groups : List Position} {complete : Bool}
    (hcloses : ∀ item, .pair item ∈ (readItems f.stop margin groups complete gs).1 → f.Closes item.notes)
    (h : f.tail <:+ (readItems f.stop margin groups complete gs).2) :
    readItems f.stop' margin (groups.map f.position) complete (f.send gs) =
      (readItems f.stop margin groups complete gs).map (List.map f.item) f.send := by
  have hsuffix := readItems_suffix f.stop margin
  obtain ⟨hblanks, hsend⟩ := dropBlanks_send (h.trans (hsuffix groups complete gs))
  induction hn : gs.length using Nat.strongRecOn generalizing gs groups complete with | _ n ih
  -- what is read on behind a first part of the text
  have hnext : ∀ {groups complete rest}, rest.length < gs.length →
      (∀ item, .pair item ∈ (readItems f.stop margin groups complete rest).1 → f.Closes item.notes) →
      f.tail <:+ (readItems f.stop margin groups complete rest).2 →
      readItems f.stop' margin (groups.map f.position) complete (f.send rest) =
        (readItems f.stop margin groups complete rest).map (List.map f.item) f.send := by
    intro groups complete rest hlt hcloses hrest
    obtain ⟨hblanks, hsend⟩ := dropBlanks_send (hrest.trans (hsuffix groups complete rest))
    exact ih rest.length (hn ▸ hlt) hcloses hrest hblanks hsend rfl
  have hlength := (dropBlanks_suffix gs).length_le
  cases hbody : dropBlanks gs with
  | nil =>
    rw [hbody] at hblanks hsend
    rw [readItems_of_nil hbody, readItems_of_nil (hsend.trans (send_nil hblanks)), unclosed_moved]
    exact Prod.ext rfl (send_nil hblanks).symm
  | cons g rest =>
    rw [hbody] at hblanks hsend hlength
    obtain ⟨gs', hcons, hrest, -⟩ := exists_send_cons hblanks
    have hcomment := eq_of_onLine atComment_onLine hblanks
    rw [hcons] at hcomment hsend
    revert hcloses h
    rw [readItems_of_cons hbody, readItems_of_cons hsend, f.glyph_isLineBreak, hcomment, f.glyph_char,
      isEmpty_map, ← hcons]
    dsimp only
    split
    · intro _ _
      rw [unclosed_moved]
      rfl
    rename_i hbreak
    have htail := suffix_of_cons hblanks hbreak
    have hlt : rest.length < gs.length := hlength
    rw [hrest htail]
    split
    · rename_i hstart
      intro hcloses h
      have hfound := h.trans (hsuffix _ _ _)
      have hlt := Nat.lt_of_lt_of_le (length_readComments_lt f.stop hstart) hlength
      rw [readComments_send hfound]
      dsimp only [Prod.map]
      rw [hnext hlt (fun item hitem => hcloses item (mem_append_right _ hitem)) h]
      simp only [Prod.map, map_append, map_map]
      rfl
    split
    · intro hcloses h
      rw [hnext hlt (fun item hitem => hcloses item (mem_cons_of_mem _ hitem)) h]
      rfl
    split
    · intro hcloses h
      rw [← map_tail, hnext hlt (fun item hitem => hcloses item (mem_cons_of_mem _ hitem)) h]
      rfl
    split
    · intro hcloses h
      rw [f.glyph_position, ← map_cons, hnext hlt (fun item hitem => hcloses item (mem_cons_of_mem _ hitem)) h]
      rfl
    split
    · intro _ _
      rw [unclosed_moved, (dropLine_send htail).2]
      exact congrArg (fun item => (item :: _, _)) (unexpected_moved _ (some g.shown) g.position)
    intro hcloses h
    have hhead : f.tail <:+ (readHead f.stop (g :: rest)).rest := by
      split at h
      · exact h.trans (dropLine_suffix _)
      · exact (h.trans (hsuffix _ _ _)).trans (readBody_suffix ..)
    have hsame : isVacant (f.read f.head (readHead f.stop (g :: rest))).value =
        isVacant (readHead f.stop (g :: rest)).value := isVacant_moved ..
    revert hcloses h
    rw [readHead_send hhead, hsame]
    split
    · intro _ _
      dsimp only [TailSwap.read]
      rw [unclosed_moved, (dropLine_send hhead).2, head?_send hhead, Option.map_map]
      have hshown : ((readHead f.stop (g :: rest)).rest.head?.map ((·.shown) ∘ f.glyph)) =
          ((readHead f.stop (g :: rest)).rest.head?.map (·.shown)).map f.shownOf := by
        rw [Option.map_map]
        rfl
      rw [hshown]
      exact congrArg (fun item => (item :: _, _)) (unexpected_moved _ _ g.position)
    · rename_i hvacant
      intro hcloses h
      have hpair := h.trans (hsuffix _ _ _)
      have hshort := (readBody_suffix f.stop margin (!groups.isEmpty) (readHead f.stop (g :: rest)).value
        (readHead f.stop (g :: rest)).rest).length_le
      have hlt := Nat.lt_of_le_of_lt hshort
        (Nat.lt_of_lt_of_le (length_readHead_lt (Bool.eq_false_iff.mpr hvacant)) hlength)
      dsimp only [TailSwap.read]
      rw [readBody_send hhalts (hcloses _ (mem_append_right _ mem_cons_self)) hpair]
      dsimp only [Prod.map]
      rw [isComplete_moved, hnext hlt
        (fun item hitem => hcloses item (mem_append_right _ (mem_cons_of_mem _ hitem))) h]
      simp only [Prod.map, map_append, map_map]
      rfl

theorem any_isPair_moved (items : List Item) : (items.map r.item).any Item.isPair = items.any Item.isPair := by
  have hpair : Item.isPair ∘ r.item = Item.isPair := by
    funext item
    cases item <;> rfl
  rw [any_map, hpair]

theorem mapError_error (f : Note → Note) (note : Note) :
    (Except.error note : Except Note α).mapError f = .error (f note) :=
  rfl

theorem mapError_ok (f : Note → Note) (a : α) : (Except.ok a : Except Note α).mapError f = .ok a := rfl

theorem measure_moved (indent : Indent) (span : Span) :
    layout.measure indent (r.span span) = (layout.measure indent span).mapError r.note := by
  unfold Layout.measure
  repeat' split
  all_goals rfl

/-- A line ends before the tail if the next one begins no later than behind it. -/
theorem suffix_of_nextLine {behind : List Glyph} (hgs : f.tail <:+ gs) (hbehind : behind <:+ gs)
    (hend : atLineEnd behind)
    (h : f.tail = [] ∨ f.tail.tail ≠ [] ∧ f.tail.tail <:+ dropLineBreak behind) : f.tail <:+ behind := by
  rcases h with hnil | ⟨hne, hnext⟩
  · rw [hnil]
    exact nil_suffix
  · refine suffix_of_suffix_length_le hgs hbehind ?_
    have hlength := hnext.length_le
    rw [length_tail] at hlength
    cases behind with
    | nil => exact absurd (suffix_nil.mp hnext) hne
    | cons g behind =>
      have hbreak : g.isLineBreak := hend
      simp only [dropLineBreak, hbreak, if_true, length_cons] at hlength ⊢
      omega

theorem exists_readLine_send (hhalts : ∀ margin, f.Halts margin) (hgs : f.tail <:+ gs)
    (h : f.tail = [] ∨ f.tail.tail ≠ [] ∧ f.tail.tail <:+ (readLine f.stop layout gs).rest)
    (hcloses : ∀ depth lead items item, .content depth lead items ∈ (readLine f.stop layout gs).lines →
      .pair item ∈ items → f.Closes item.notes) :
    ∃ behind, f.tail <:+ behind ∧ (readLine f.stop layout gs).rest = dropLineBreak behind ∧
      readLine f.stop' layout (f.send gs) = ⟨(readLine f.stop layout gs).lines.map f.line,
        (readLine f.stop layout gs).layout, dropLineBreak (f.send behind)⟩ := by
  obtain ⟨hblanks, hsend⟩ := dropBlanks_send hgs
  have hsuffix := (readComments_suffix f.stop (dropBlanks gs)).trans (dropBlanks_suffix gs)
  have hnext : ∀ {rest}, rest <:+ gs →
      (f.tail = [] ∨ f.tail.tail ≠ [] ∧ f.tail.tail <:+ dropLineBreak (dropLine rest)) → f.tail <:+ rest := by
    intro rest hrest h
    exact (suffix_of_nextLine hgs ((dropLine_suffix rest).trans hrest) (atLineEnd_dropLine rest) h).trans
      (dropLine_suffix rest)
  have hafter : f.tail <:+ (readComments f.stop (dropBlanks gs)).2 := by
    revert h
    simp only [readLine]
    split
    · exact suffix_of_nextLine hgs hsuffix ‹_›
    · split
      · exact hnext hsuffix
      · exact fun h => (hnext ((readItems_suffix ..).trans hsuffix) h).trans (readItems_suffix ..)
  have hleading : ∀ (depth : Nat) (found : List Comment),
      (if (found.map f.comment).isEmpty then [] else [.comments depth (found.map f.comment)]) =
        (if found.isEmpty then [] else [.comments depth found]).map f.line := by
    intro depth found
    cases found <;> rfl
  have hspan : ∀ after : List Glyph, Span.mk (f.position (here f.stop gs)) (f.position (here f.stop after)) =
      f.span ⟨here f.stop gs, here f.stop after⟩ := fun _ => rfl
  revert h hcloses
  simp only [readLine, hsend, readComments_send hafter, Prod.map, eq_of_onLine indent_onLine hgs, hleading,
    eq_of_onLine atLineEnd_onLine hafter, here_send hgs, here_send hblanks, here_send hafter, hspan, measure_moved]
  split
  · exact fun _ _ => ⟨_, hafter, rfl, rfl⟩
  · cases layout.measure (Indent.of gs) ⟨here f.stop gs, here f.stop (dropBlanks gs)⟩ with
    | error note =>
      intro _ _
      refine ⟨_, (dropLine_send hafter).1, rfl, ?_⟩
      simp only [mapError_error, (dropLine_send hafter).2, map_append]
      rfl
    | ok measured =>
      intro h hcloses
      have hrest := hnext ((readItems_suffix ..).trans hsuffix) h
      have hitems := readItems_send (hhalts _) (fun item hitem => hcloses _ _ _ item
        (mem_append_right _ (mem_singleton_self _)) hitem) hrest
      rw [map_nil] at hitems
      refine ⟨_, (dropLine_send hrest).1, rfl, ?_⟩
      simp only [mapError_ok, hitems, Prod.map, any_isPair_moved, (dropLine_send hrest).2, map_append]
      rfl

theorem dropLineBreak_map (gs : List Glyph) : dropLineBreak (gs.map r.glyph) = (dropLineBreak gs).map r.glyph := by
  cases gs with
  | nil => rfl
  | cons g gs =>
    rw [map_cons, dropLineBreak, dropLineBreak, r.glyph_isLineBreak]
    split <;> rfl

theorem readLines_moved {r : PlaceMap} (hr : ∀ n, r.columnOf n = n) (stop : Position) (layout : Layout)
    (gs : List Glyph) :
    readLines (r.position stop) layout (gs.map r.glyph) = (readLines stop layout gs).map r.line := by
  let f : TailSwap := ⟨r, stop, r.position stop, [], [], hr, rfl, rfl, fun _ => rfl⟩
  have hsend : ∀ gs : List Glyph, f.send gs = gs.map r.glyph := fun gs => by simp [TailSwap.send, f]
  fun_induction readLines stop layout gs with
  | case1 layout => rw [map_nil, readLines_nil, map_nil]
  | case2 layout gs hgs _ line ih =>
    obtain ⟨behind, -, hrest, hread⟩ := exists_readLine_send layout
      (fun _ hne => absurd rfl hne) (show f.tail <:+ gs from nil_suffix) (.inl rfl)
      (fun _ _ _ _ _ _ hne => absurd rfl hne)
    rw [hsend, hsend, dropLineBreak_map, ← hrest] at hread
    rw [readLines_of_readLine hread, map_append, ← ih]

end Line

end PairMarkup
