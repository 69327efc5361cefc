import PairMarkup.Proofs.Reading

namespace PairMarkup

open List Glyph

/-- Things that lie one behind the other in what is read from `gs` on, up to `rest`. -/
def InOrder {α : Type} (Lies : List Glyph → List Glyph → α → Prop) : List Glyph → List α → List Glyph → Prop
  | gs, [], rest => rest <:+ gs
  | gs, x :: xs, rest => ∃ mid, Lies gs mid x ∧ InOrder Lies mid xs rest

namespace InOrder

variable {α β : Type} {Lies : List Glyph → List Glyph → α → Prop} {gs gs' mid rest rest' : List Glyph}
  {xs ys : List α}

theorem suffix (hLies : ∀ {gs rest x}, Lies gs rest x → rest <:+ gs) (h : InOrder Lies gs xs rest) : rest <:+ gs := by
  induction xs generalizing gs with
  | nil => exact h
  | cons x xs ih =>
    obtain ⟨mid, hx, hxs⟩ := h
    exact (ih hxs).trans (hLies hx)

theorem append (h : InOrder Lies gs xs mid) (h' : InOrder Lies mid ys rest)
    (hleft : ∀ {gs gs' rest x}, gs <:+ gs' → Lies gs rest x → Lies gs' rest x) :
    InOrder Lies gs (xs ++ ys) rest := by
  induction xs generalizing gs with
  | nil =>
    cases ys with
    | nil => exact List.IsSuffix.trans h' h
    | cons y ys =>
      obtain ⟨next, hy, hys⟩ := h'
      exact ⟨next, hleft h hy, hys⟩
  | cons x xs ih =>
    obtain ⟨next, hx, hxs⟩ := h
    exact ⟨next, hx, ih hxs⟩

theorem of_suffix_left (h : InOrder Lies gs xs rest) (hgs : gs <:+ gs')
    (hleft : ∀ {gs gs' rest x}, gs <:+ gs' → Lies gs rest x → Lies gs' rest x) :
    InOrder Lies gs' xs rest :=
  have hnil : InOrder Lies gs' [] gs := hgs
  hnil.append h hleft

theorem of_suffix_right (h : InOrder Lies gs xs rest) (hrest : rest' <:+ rest) : InOrder Lies gs xs rest' := by
  induction xs generalizing gs with
  | nil => exact hrest.trans h
  | cons x xs ih =>
    obtain ⟨mid, hx, hxs⟩ := h
    exact ⟨mid, hx, ih hxs⟩

theorem singleton {x : α} (h : Lies gs rest x) : InOrder Lies gs [x] rest := ⟨rest, h, suffix_refl _⟩

theorem map {L : List Glyph → List Glyph → β → Prop} {f : α → β}
    (hf : ∀ {gs rest x}, Lies gs rest x → L gs rest (f x)) (h : InOrder Lies gs xs rest) :
    InOrder L gs (xs.map f) rest := by
  induction xs generalizing gs with
  | nil => exact h
  | cons x xs ih =>
    obtain ⟨mid, hx, hxs⟩ := h
    exact ⟨mid, hf hx, ih hxs⟩

section

variable (hLies : ∀ {gs rest x}, Lies gs rest x → rest <:+ gs)
  (hleft : ∀ {gs gs' rest x}, gs <:+ gs' → Lies gs rest x → Lies gs' rest x)

include hLies hleft

theorem of_mem (hright : ∀ {gs rest rest' x}, rest' <:+ rest → Lies gs rest x → Lies gs rest' x)
    (h : InOrder Lies gs xs rest) {x : α} (hx : x ∈ xs) : Lies gs rest x := by
  induction xs generalizing gs with
  | nil => cases hx
  | cons y xs ih =>
    obtain ⟨mid, hy, hxs⟩ := h
    rcases mem_cons.mp hx with rfl | hx
    · exact hright (suffix hLies hxs) hy
    · exact hleft (hLies hy) (ih hxs hx)

theorem sublist (h : InOrder Lies gs ys rest) (hsub : xs.Sublist ys) : InOrder Lies gs xs rest := by
  induction hsub generalizing gs with
  | slnil => exact h
  | cons y _ ih =>
    obtain ⟨mid, hy, hys⟩ := h
    exact of_suffix_left (ih hys) (hLies hy) hleft
  | cons_cons y _ ih =>
    obtain ⟨mid, hy, hys⟩ := h
    exact ⟨mid, hy, ih hys⟩

end

end InOrder

namespace Span

variable {stop : Position} {gs gs' rest rest' : List Glyph} {span : Span}

/-- The span is that of something read between `gs` and `rest`. -/
def LiesIn (stop : Position) (gs rest : List Glyph) (span : Span) : Prop :=
  ∃ a b, span = ⟨here stop a, here stop b⟩ ∧ rest <:+ b ∧ b <:+ a ∧ a <:+ gs

/-- The same of something that takes at least one character. -/
def Fills (stop : Position) (gs rest : List Glyph) (span : Span) : Prop :=
  ∃ a b, span = ⟨here stop a, here stop b⟩ ∧ rest <:+ b ∧ b <:+ a ∧ b.length < a.length ∧ a <:+ gs

theorem liesIn (hrest : rest <:+ gs) : LiesIn stop gs rest ⟨here stop gs, here stop rest⟩ :=
  ⟨gs, rest, rfl, suffix_refl _, hrest, suffix_refl _⟩

theorem point_liesIn {mid : List Glyph} (hrest : rest <:+ mid) (hgs : mid <:+ gs) :
    LiesIn stop gs rest (.point (here stop mid)) :=
  ⟨mid, mid, rfl, hrest, suffix_refl _, hgs⟩

theorem fills (hrest : rest <:+ gs) (hlt : rest.length < gs.length) :
    Fills stop gs rest ⟨here stop gs, here stop rest⟩ :=
  ⟨gs, rest, rfl, suffix_refl _, hrest, hlt, suffix_refl _⟩

theorem LiesIn.mono (h : LiesIn stop gs rest span) (hgs : gs <:+ gs') (hrest : rest' <:+ rest) :
    LiesIn stop gs' rest' span := by
  obtain ⟨a, b, hspan, hb, hba, ha⟩ := h
  exact ⟨a, b, hspan, hrest.trans hb, hba, ha.trans hgs⟩

namespace Fills

theorem liesIn (h : Fills stop gs rest span) : LiesIn stop gs rest span := by
  obtain ⟨a, b, hspan, hb, hba, -, ha⟩ := h
  exact ⟨a, b, hspan, hb, hba, ha⟩

theorem suffix (h : Fills stop gs rest span) : rest <:+ gs := by
  obtain ⟨a, b, -, hb, hba, -, ha⟩ := h
  exact hb.trans (hba.trans ha)

theorem left (hgs : gs <:+ gs') (h : Fills stop gs rest span) : Fills stop gs' rest span := by
  obtain ⟨a, b, hspan, hb, hba, hlt, ha⟩ := h
  exact ⟨a, b, hspan, hb, hba, hlt, ha.trans hgs⟩

theorem right (hrest : rest' <:+ rest) (h : Fills stop gs rest span) : Fills stop gs rest' span := by
  obtain ⟨a, b, hspan, hb, hba, hlt, ha⟩ := h
  exact ⟨a, b, hspan, hrest.trans hb, hba, hlt, ha⟩

end Fills

end Span

/-- The head is what was read from `gs` to `rest`, with its name somewhere in it. -/
structure Head.Spans (stop : Position) (gs rest : List Glyph) (head : Head) : Prop where
  span_eq : head.span = ⟨here stop gs, here stop rest⟩
  suffix : rest <:+ gs
  length_lt : rest.length < gs.length
  name : ∀ name, head.name = some name → name.span.LiesIn stop gs rest

variable {stop : Position} {rest gs gs' : List Glyph}

theorem Head.Spans.fills {head : Head} (h : head.Spans stop gs rest) : head.span.Fills stop gs rest := by
  rw [h.span_eq]
  exact Span.fills h.suffix h.length_lt

def Segment.span : Segment → Span
  | text _ span => span
  | reference head => head.span

/-- The parts lie one behind the other, and so do the names in them. -/
def Segment.LieIn (stop : Position) (gs rest : List Glyph) (parts : List Segment) : Prop :=
  InOrder (fun gs rest (part : Segment) => part.span.Fills stop gs rest) gs parts rest ∧
    ∀ found, .reference found ∈ parts → ∀ name, found.name = some name → name.span.LiesIn stop gs rest

/-- What a value refers to lies in it, and so do its parts. -/
def Value.LiesIn (stop : Position) (gs rest : List Glyph) : Value → Prop
  | .text _ _ | .bare _ => True
  | .reference found => ∃ start, start <:+ gs ∧ found.head.Spans stop start rest
  | .segments parts _ => Segment.LieIn stop gs rest parts

theorem Value.LiesIn.left {value : Value} (hgs : gs <:+ gs')
    (h : value.LiesIn stop gs rest) : value.LiesIn stop gs' rest := by
  cases value with
  | text content kind => trivial
  | bare content => trivial
  | reference head =>
    obtain ⟨start, hstart, hhead⟩ := h
    exact ⟨start, hstart.trans hgs, hhead⟩
  | segments parts hparts =>
    obtain ⟨hparts, hnames⟩ := h
    refine ⟨InOrder.of_suffix_left hparts hgs Span.Fills.left, fun head hhead name hname => ?_⟩
    exact (hnames head hhead name hname).mono hgs (suffix_refl _)

/-- The pair begins with its head and goes on with its value. -/
structure PairItem.LiesIn (stop : Position) (gs rest : List Glyph) (item : PairItem) : Prop where
  exists_body : ∃ body, item.head.Spans stop gs body ∧ rest <:+ body ∧
    ∀ value, item.value = some value → value.LiesIn stop body rest
  stop_eq : item.stop = here stop rest

/-- Pairs and comments take characters; nothing is asked of the marks between them. -/
def Item.LiesIn (stop : Position) (gs rest : List Glyph) : Item → Prop
  | .pair item => ∃ start after, start <:+ gs ∧ rest <:+ after ∧ item.LiesIn stop start after
  | .comment c => c.span.Fills stop gs rest
  | .separator | .openGroup | .closeGroup | .note _ => rest <:+ gs

def Line.LiesIn (stop : Position) (gs rest : List Glyph) : Line → Prop
  | .comments _ cs => InOrder (fun gs rest (c : Comment) => c.span.Fills stop gs rest) gs cs rest
  | .rejected _ => rest <:+ gs
  | .content _ lead items =>
    ∃ start, Span.LiesIn stop gs start (.point lead.stop) ∧ start <:+ gs ∧ InOrder (Item.LiesIn stop) start items rest

namespace Item.LiesIn

variable {stop : Position} {gs gs' rest rest' : List Glyph} {item : Item}

theorem left (hgs : gs <:+ gs') (h : item.LiesIn stop gs rest) : item.LiesIn stop gs' rest := by
  cases item with
  | pair item =>
    obtain ⟨start, after, hstart, hafter, hitem⟩ := h
    exact ⟨start, after, hstart.trans hgs, hafter, hitem⟩
  | comment c => exact Span.Fills.left hgs h
  | separator => exact List.IsSuffix.trans h hgs
  | openGroup => exact List.IsSuffix.trans h hgs
  | closeGroup => exact List.IsSuffix.trans h hgs
  | note note => exact List.IsSuffix.trans h hgs

end Item.LiesIn

theorem Line.LiesIn.left {line : Line} (hgs : gs <:+ gs')
    (h : line.LiesIn stop gs rest) : line.LiesIn stop gs' rest := by
  cases line with
  | comments depth cs => exact InOrder.of_suffix_left h hgs Span.Fills.left
  | rejected note => exact List.IsSuffix.trans h hgs
  | content depth lead items =>
    obtain ⟨start, hlead, hstart, hitems⟩ := h
    exact ⟨start, hlead.mono hgs (suffix_refl _), hstart.trans hgs, hitems⟩

namespace Line

variable {stop : Position} {gs rest : List Glyph} {pieces : List Piece} {literal : List Char}

section

variable (stop : Position)

theorem readComment_fills (hcomment : atComment gs) :
    (readComment stop gs).1.span.Fills stop gs (readComment stop gs).2 :=
  Span.fills ((readComment_suffix stop gs).trans (drop_suffix 3 gs)) (length_readComment_lt stop hcomment)

theorem readComments_inOrder (gs : List Glyph) :
    InOrder (fun gs rest (c : Comment) => c.span.Fills stop gs rest) gs (readComments stop gs).1
      (readComments stop gs).2 := by
  fun_induction readComments stop gs with
  | case1 gs hcomment _ _ first more ih =>
    exact ⟨first.2, readComment_fills stop hcomment, InOrder.of_suffix_left ih (dropBlanks_suffix _) Span.Fills.left⟩
  | case2 gs hcomment => exact suffix_refl _

theorem readBareName_liesIn (gs : List Glyph) :
    ∀ name, (readBareName stop gs).1 = some name → name.span.LiesIn stop gs (readBareName stop gs).2 := by
  intro name hname
  simp only [readBareName] at hname ⊢
  split at hname
  · cases hname
  · rename_i htext
    rw [if_neg htext]
    cases hname
    exact ⟨gs, _, rfl, breakAt_endsName_suffix gs, drop_suffix _ gs, suffix_refl _⟩

theorem readName_liesIn (gs : List Glyph) :
    ∀ name, (readName stop gs).value = some name → name.span.LiesIn stop gs (readName stop gs).rest := by
  intro name hname
  unfold readName at hname ⊢
  split at hname
  · cases hname
  · rename_i g rest
    dsimp only
    split at hname
    · cases hname
    · rename_i hcomment
      rw [if_neg hcomment]
      split at hname
      · rename_i hquote
        rw [if_pos hquote]
        cases hname
        exact Span.liesIn ((readQuotedText_suffix stop g.position g.char rest).trans (suffix_cons g rest))
      · rename_i hquote
        rw [if_neg hquote]
        exact readBareName_liesIn stop (g :: rest) name hname

end

theorem readHead_spans (hfound : isVacant (readHead stop gs).value = false) :
    (readHead stop gs).value.Spans stop gs (readHead stop gs).rest where
  span_eq := rfl
  suffix := readHead_suffix stop gs
  length_lt := length_readHead_lt hfound
  name name hname := (readName_liesIn stop (readSigil gs).2 name hname).mono (readSigil_suffix gs)
      ((readDelimiter_suffix _).trans (dropBlanks_suffix _))

theorem readReference_spans (stop : Position) (g : Glyph) (gs : List Glyph) :
    (readReference stop (g :: gs)).1.head.Spans stop (g :: gs) (readReference stop (g :: gs)).2 where
  span_eq := rfl
  suffix := readReference_suffix stop (g :: gs)
  length_lt := length_readReference_lt stop g gs
  name name hname := by
    simp only [readReference] at hname ⊢
    split at hname
    · cases hname
    · cases hname
      exact (Span.liesIn (breakAt_suffix endsReference gs)).mono (suffix_cons g gs) (suffix_refl _)

/-- How a quoted text is spelled from `gs` on up to `rest`: a run of characters takes some of it,
    and so does a reference, which begins right where the run before it ends. -/
inductive Spelled (stop : Position) : List Glyph → List Piece → List Glyph → Prop
  | nil {gs rest : List Glyph} (hrest : rest <:+ gs) : Spelled stop gs [] rest
  | chars {gs mid rest : List Glyph} {pieces : List Piece} (cs : List Char) (hmid : mid <:+ gs)
    (hlt : mid.length < gs.length) (hpieces : Spelled stop mid pieces rest) :
    Spelled stop gs (cs.map .char ++ pieces) rest
  | reference {gs mid rest : List Glyph} {pieces : List Piece} {found : Reference}
    (hhead : found.head.Spans stop gs mid) (hpieces : Spelled stop mid pieces rest) :
    Spelled stop gs (.reference found :: pieces) rest

theorem Spelled.suffix (h : Spelled stop gs pieces rest) : rest <:+ gs := by
  induction h with
  | nil hrest => exact hrest
  | chars cs hmid _ _ ih => exact ih.trans hmid
  | reference hhead _ ih => exact ih.trans hhead.suffix

theorem Spelled.char {g : Glyph} {gs mid : List Glyph} (c : Char) (hmid : mid <:+ gs)
    (hpieces : Spelled stop mid pieces rest) : Spelled stop (g :: gs) (.char c :: pieces) rest :=
  .chars [c] (hmid.trans (suffix_cons g gs)) (Nat.lt_succ_of_le hmid.length_le) hpieces

theorem readPieces_spelled (stop : Position) (margin : Margin) (start : Position) (quote : Char) (gs : List Glyph) :
    Spelled stop gs (readPieces stop margin start quote gs).value (readPieces stop margin start quote gs).rest := by
  fun_induction readPieces stop margin start quote gs with
  | case1 => exact .nil (suffix_refl _)
  | case2 g rest _ => exact .nil (suffix_cons g rest)
  | case3 g rest _ _ _ _ more ih => exact .char _ (dropUpToColumn_suffix _ rest) ih
  | case4 g rest _ _ _ => exact .nil (suffix_refl _)
  | case5 g rest _ _ _ _ escape more ih =>
    have hescape := readEscape_suffix stop g.position rest
    exact .chars escape.value (hescape.trans (suffix_cons g rest)) (Nat.lt_succ_of_le hescape.length_le) ih
  | case6 g rest _ _ _ _ _ reference more ih => exact .reference (readReference_spans stop g rest) ih
  | case7 g rest _ _ _ _ more ih => exact .char _ (suffix_refl _) ih

theorem segments_chars (last start : Position) (literal cs : List Char) (pieces : List Piece) :
    segments last start literal (cs.map .char ++ pieces) = segments last start (cs.reverse ++ literal) pieces := by
  induction cs generalizing literal with
  | nil => rfl
  | cons c cs ih =>
    rw [map_cons, cons_append, segments, ih, reverse_cons, append_assoc]
    rfl

theorem textSegment_inOrder (hrest : rest <:+ gs) (hliteral : literal ≠ [] → rest.length < gs.length) :
    InOrder (fun gs rest (part : Segment) => part.span.Fills stop gs rest) gs
      (segments.textSegment (here stop gs) (here stop rest) literal) rest := by
  unfold segments.textSegment
  split
  · exact hrest
  · rename_i hempty
    exact .singleton (Span.fills hrest (hliteral (by simpa using hempty)))

/-- The texts between the references fill what is between them. The text at hand began at
    `origin`. -/
theorem segments_inOrder (h : Spelled stop gs pieces rest) {origin : List Glyph} (horigin : gs <:+ origin)
    (hliteral : literal ≠ [] → gs.length < origin.length) :
    InOrder (fun gs rest (part : Segment) => part.span.Fills stop gs rest) origin
      (segments (here stop rest) (here stop origin) literal pieces) rest := by
  induction h generalizing origin literal with
  | nil hrest =>
    refine textSegment_inOrder (hrest.trans horigin) fun hne => ?_
    exact Nat.lt_of_le_of_lt hrest.length_le (hliteral hne)
  | chars cs hmid hlt _ ih =>
    rw [segments_chars]
    exact ih (hmid.trans horigin) fun _ => Nat.lt_of_lt_of_le hlt horigin.length_le
  | @reference gs mid rest pieces head hhead hpieces ih =>
    rw [segments, show head.span = _ from hhead.span_eq]
    refine InOrder.append (textSegment_inOrder horigin hliteral) ⟨mid, hhead.fills, ?_⟩ Span.Fills.left
    exact ih (suffix_refl mid) fun hne => absurd rfl hne

theorem Spelled.name (h : Spelled stop gs pieces rest) {found : Reference}
    (hhead : .reference found ∈ pieces) (name : Name) (hname : found.name = some name) :
    name.span.LiesIn stop gs rest := by
  induction h with
  | nil => cases hhead
  | chars cs hmid _ _ ih =>
    rcases mem_append.mp hhead with hmem | hmem
    · obtain ⟨c, -, hc⟩ := mem_map.mp hmem
      cases hc
    · exact (ih hmem).mono hmid (suffix_refl _)
  | reference hfirst hpieces ih =>
    rcases mem_cons.mp hhead with heq | hmem
    · cases heq
      exact (hfirst.name name hname).mono (suffix_refl _) hpieces.suffix
    · exact (ih hmem).mono hfirst.suffix (suffix_refl _)

section

variable (stop : Position) (margin : Margin)

theorem readQuoted_liesIn (g : Glyph) (rest : List Glyph) :
    (readQuoted stop margin g rest).value.LiesIn stop rest (readQuoted stop margin g rest).rest := by
  have hspelled := readPieces_spelled stop margin g.position g.char rest
  simp only [readQuoted]
  split
  · refine ⟨segments_inOrder hspelled (suffix_refl rest) fun hne => absurd rfl hne, ?_⟩
    intro head hhead
    exact hspelled.name (reference_mem_segments.mp hhead)
  · trivial

theorem readFolded_liesIn (first : List (List Char)) {otherwise : Value}
    (h : ∀ gs rest, otherwise.LiesIn stop gs rest) (gs : List Glyph) :
    (readFolded stop margin first otherwise gs).value.LiesIn stop gs
      (readFolded stop margin first otherwise gs).rest := by
  simp only [readFolded]
  split
  · exact h _ _
  · trivial

theorem readOpenString_liesIn (inGroup : Bool) (gs : List Glyph) :
    (readOpenString stop margin inGroup gs).value.LiesIn stop gs (readOpenString stop margin inGroup gs).rest := by
  have hvalue : ∀ (text : List Char) (gs rest : List Glyph), Value.LiesIn stop gs rest
      (if text.isEmpty then .text "" .empty else .bare (String.ofList text)) := by
    intro text gs rest
    split <;> trivial
  simp only [readOpenString]
  split
  · exact Value.LiesIn.left (breakAt_suffix _ gs) (readFolded_liesIn stop margin _ (hvalue _) _)
  · exact hvalue _ _ _

theorem readValue_liesIn (inGroup : Bool) (gs : List Glyph) :
    (readValue stop margin inGroup gs).value.LiesIn stop gs (readValue stop margin inGroup gs).rest := by
  have hblanks := dropBlanks_suffix gs
  unfold readValue
  split
  · trivial
  · rename_i g rest hcons
    rw [hcons] at hblanks
    have hrest := (suffix_cons g rest).trans hblanks
    split
    · have hempty : ∀ gs rest, Value.LiesIn stop gs rest (.text "" .empty) := fun _ _ => trivial
      exact (readFolded_liesIn stop margin [] hempty (g :: rest)).left hblanks
    · split
      · trivial
      · split
        · exact (readQuoted_liesIn stop margin g rest).left hrest
        · split
          · exact ⟨g :: rest, hblanks, readReference_spans stop g rest⟩
          · exact (readOpenString_liesIn stop margin inGroup (g :: rest)).left hblanks

end

theorem readBody_liesIn {margin : Margin} {inGroup : Bool} {head : Head} {body : List Glyph}
    (hhead : head.Spans stop gs body) :
    (readBody stop margin inGroup head body).1.LiesIn stop gs (readBody stop margin inGroup head body).2 := by
  refine ⟨⟨body, hhead, readBody_suffix stop margin inGroup head body, fun value hvalue => ?_⟩, rfl⟩
  change (readAnnounced stop margin inGroup body head.delimiter).map (·.value) = some value at hvalue
  change value.LiesIn stop body ((readAnnounced stop margin inGroup body head.delimiter).elim body (·.rest))
  cases hdelimiter : head.delimiter <;> rw [hdelimiter] at hvalue <;> cases hvalue
  · exact readValue_liesIn stop margin inGroup body
  · trivial

theorem unclosed_inOrder (groups : List Position) (hrest : rest <:+ gs) :
    InOrder (Item.LiesIn stop) gs (unclosed groups) rest := by
  induction groups with
  | nil => exact hrest
  | cons start groups ih => exact ⟨gs, suffix_refl gs, ih⟩

theorem notes_inOrder (notes : List Note) (gs : List Glyph) : InOrder (Item.LiesIn stop) gs (notes.map .note) gs := by
  induction notes with
  | nil => exact suffix_refl gs
  | cons note notes ih => exact ⟨gs, suffix_refl gs, ih⟩

section

variable (stop)

theorem readItems_inOrder (margin : Margin) (groups : List Position) (complete : Bool) (gs : List Glyph) :
    InOrder (Item.LiesIn stop) gs (readItems stop margin groups complete gs).1
      (readItems stop margin groups complete gs).2 := by
  fun_induction readItems stop margin groups complete gs with
  | case1 _ _ gs hblanks => exact unclosed_inOrder _ (hblanks ▸ dropBlanks_suffix gs)
  | case2 _ _ gs g rest hblanks => exact unclosed_inOrder _ (hblanks ▸ dropBlanks_suffix gs)
  | case3 _ _ gs g rest hblanks _ _ _ _ found more ih =>
    have hcomments := (readComments_inOrder stop (g :: rest)).map (L := Item.LiesIn stop) (f := Item.comment) id
    exact InOrder.of_suffix_left (hcomments.append ih Item.LiesIn.left) (hblanks ▸ dropBlanks_suffix gs)
      Item.LiesIn.left
  | case4 _ _ gs g rest hblanks _ _ _ _ more ih =>
    exact ⟨rest, (suffix_cons g rest).trans (hblanks ▸ dropBlanks_suffix gs), ih⟩
  | case5 _ _ gs g rest hblanks _ _ _ _ _ more ih =>
    exact ⟨rest, (suffix_cons g rest).trans (hblanks ▸ dropBlanks_suffix gs), ih⟩
  | case6 _ _ gs g rest hblanks _ _ _ _ _ _ more ih =>
    exact ⟨rest, (suffix_cons g rest).trans (hblanks ▸ dropBlanks_suffix gs), ih⟩
  | case7 _ _ gs g rest hblanks =>
    refine ⟨rest, (suffix_cons g rest).trans (hblanks ▸ dropBlanks_suffix gs), ?_⟩
    exact unclosed_inOrder _ (dropLine_suffix rest)
  | case8 _ _ gs g rest hblanks _ _ _ _ _ _ _ after =>
    refine ⟨g :: rest, hblanks ▸ dropBlanks_suffix gs, ?_⟩
    exact unclosed_inOrder _ ((dropLine_suffix _).trans (readHead_suffix stop _))
  | case9 groups _ gs g rest hblanks _ _ _ _ _ _ _ hfound _ _ head pair more ih =>
    have hhead : head.value.Spans stop (g :: rest) head.rest := readHead_spans (Bool.eq_false_iff.mpr hfound)
    have hpair : Item.LiesIn stop (g :: rest) pair.2 (.pair pair.1) :=
      ⟨g :: rest, pair.2, suffix_refl _, suffix_refl _, readBody_liesIn hhead⟩
    have hitems : InOrder (Item.LiesIn stop) (g :: rest) (.pair pair.1 :: more.1) more.2 := ⟨pair.2, hpair, ih⟩
    exact InOrder.of_suffix_left ((notes_inOrder head.notes _).append hitems Item.LiesIn.left)
      (hblanks ▸ dropBlanks_suffix gs) Item.LiesIn.left

theorem readLine_inOrder (layout : Layout) (gs : List Glyph) :
    InOrder (Line.LiesIn stop) gs (readLine stop layout gs).lines (readLine stop layout gs).rest := by
  have hbody := dropBlanks_suffix gs
  have hcomments := readComments_inOrder stop (dropBlanks gs)
  have hafter := readComments_suffix stop (dropBlanks gs)
  have hleading : ∀ depth, InOrder (Line.LiesIn stop) gs (if (readComments stop (dropBlanks gs)).1.isEmpty then []
        else [.comments depth (readComments stop (dropBlanks gs)).1])
      (readComments stop (dropBlanks gs)).2 := by
    intro depth
    split
    · exact hafter.trans hbody
    · exact .singleton (InOrder.of_suffix_left hcomments hbody Span.Fills.left)
  simp only [readLine]
  split
  · exact (hleading _).of_suffix_right (dropLineBreak_suffix _)
  · split
    · refine (hleading _).append (.singleton ?_) LiesIn.left
      exact (dropLineBreak_suffix _).trans (dropLine_suffix _)
    · refine (hleading _).append (.singleton ⟨_, ?_, suffix_refl _, ?_⟩) LiesIn.left
      · exact Span.point_liesIn (suffix_refl _) (suffix_refl _)
      · exact InOrder.of_suffix_right (readItems_inOrder stop _ _ _ _)
          ((dropLineBreak_suffix _).trans (dropLine_suffix _))

theorem readLines_inOrder (layout : Layout) (gs : List Glyph) :
    InOrder (Line.LiesIn stop) gs (readLines stop layout gs) [] := by
  fun_induction readLines stop layout gs with
  | case1 => exact suffix_refl _
  | case2 layout gs hgs _ line ih => exact (readLine_inOrder stop layout gs).append ih LiesIn.left

end

/-- The lines of a text lie one behind the other, from its beginning to its end. -/
theorem ofText_inOrder (text : List Char) :
    InOrder (Line.LiesIn (Cursor.ofList text).stop) (Cursor.ofList text).ahead (ofText text) [] :=
  readLines_inOrder _ _ _

end Line

end PairMarkup
