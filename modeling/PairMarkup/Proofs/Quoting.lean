import PairMarkup.Proofs.Outline.RoundTrip

namespace PairMarkup

open List

variable {margin : Margin} {unit : Nat}

namespace Text

def lowerDigits : List Char := ['0', '1', '2', '3', '4', '5', '6', '7', '8', '9', 'a', 'b', 'c', 'd', 'e', 'f']

def upperDigits : List Char := ['0', '1', '2', '3', '4', '5', '6', '7', '8', '9', 'A', 'B', 'C', 'D', 'E', 'F']

/-- The digit, of either case, has this value. -/
def IsHexDigit (c : Char) (n : Nat) : Prop := lowerDigits[n]? = some c ∨ upperDigits[n]? = some c

/-- Four hexadecimal digits that spell a code unit. -/
inductive SpellsUnit : List Char → Nat → Prop
  | digits {a b c d : Char} {i j k l : Nat} (ha : IsHexDigit a i) (hb : IsHexDigit b j) (hc : IsHexDigit c k)
      (hd : IsHexDigit d l) : SpellsUnit [a, b, c, d] (((i * 16 + j) * 16 + k) * 16 + l)

/-- What stands behind a backslash, with the character that is meant. -/
def shortEscapes : List (Char × Char) :=
  [('\\', '\\'), ('"', '"'), ('\'', '\''), ('/', '/'), ('b', '\x08'), ('f', '\x0c'), ('n', '\n'), ('r', '\r'),
    ('t', '\t'), ('$', '$'), ('%', '%')]

/-- The ways to write a character between double quotes. `column` is that of the opening quote. -/
inductive Spelling (column : Nat) : Char → List Char → Prop
  | plain {c : Char} (hc : c ∉ ['"', '\\', '$', '%', '\t', '\n', '\r']) : Spelling column c [c]
  | short {c mark : Char} (hmark : (mark, c) ∈ shortEscapes) : Spelling column c ['\\', mark]
  | unit {c : Char} {digits : List Char} (hdigits : SpellsUnit digits c.toNat) :
      Spelling column c ('\\' :: 'u' :: digits)
  | surrogates {c : Char} {high low : List Char} (hc : 0x10000 ≤ c.toNat)
      (hhigh : SpellsUnit high (0xD800 + (c.toNat - 0x10000) / 0x400))
      (hlow : SpellsUnit low (0xDC00 + (c.toNat - 0x10000) % 0x400)) :
      Spelling column c ('\\' :: 'u' :: (high ++ '\\' :: 'u' :: low))
  | lineBreak {ending : List Char} (hending : ending = ['\n'] ∨ ending = ['\r', '\n']) :
      Spelling column '\n' (ending ++ List.replicate column ' ')

/-- The text is written between double quotes, each character in one of its ways. -/
inductive Spelled (column : Nat) : List Char → List Char → Prop
  | nil : Spelled column [] []
  | cons {c : Char} {content written more : List Char} (hc : Spelling column c written)
      (hcontent : Spelled column content more) : Spelled column (c :: content) (written ++ more)

variable {c d : Char} {n : Nat}

theorem hexDigit?_of_isHexDigit (h : IsHexDigit c n) : hexDigit? c = some n := by
  have hlower : ∀ n < 16, lowerDigits[n]?.bind hexDigit? = some n := by decide
  have hupper : ∀ n < 16, upperDigits[n]?.bind hexDigit? = some n := by decide
  rcases h with h | h
  · have hlt : n < 16 := (List.getElem?_eq_some_iff.mp h).1
    simpa [h] using hlower n hlt
  · have hlt : n < 16 := (List.getElem?_eq_some_iff.mp h).1
    simpa [h] using hupper n hlt

theorem IsHexDigit.ne (h : IsHexDigit c n) (hd : hexDigit? d = none) : c ≠ d := by
  rintro rfl
  rw [hexDigit?_of_isHexDigit h] at hd
  cases hd

theorem SpellsUnit.not_mem {digits : List Char} (h : SpellsUnit digits unit)
    (hd : hexDigit? d = none) : d ∉ digits := by
  cases h with
  | digits ha hb hc hd' => simp [(ha.ne hd).symm, (hb.ne hd).symm, (hc.ne hd).symm, (hd'.ne hd).symm]

end Text

/-- The place that is `n` characters further on the line. -/
def Position.along (p : Position) (n : Nat) : Position := ⟨p.line, p.column + n, p.offset + n⟩

namespace Glyph

variable {text : List Char} {p : Position} {g : Glyph}

/-- A text is placed before what follows it, unless a line break lies across both. -/
theorem place_append {rest : List Char} (h : '\r' ∉ text ∨ '\n' ∉ rest.head?) (p : Position) :
    place p (text ++ rest) = place p text ++ place (placeAfter p text) rest := by
  fun_induction place p text with
  | case1 p text ih =>
    change place p ('\r' :: '\n' :: (text ++ rest)) = _
    rw [place, ih (h.imp_left fun h => by simp_all)]
    rfl
  | case2 p c text hne ih =>
    rw [cons_append, place, ih (h.imp_left fun h => by simp_all)]
    · rfl
    · rintro more rfl heq
      cases text with
      | nil => rcases h with h | h <;> simp_all
      | cons d text =>
        obtain ⟨rfl, rfl⟩ := cons.inj heq
        exact hne _ rfl rfl
  | case3 => rfl

theorem position_of_head?_place (hg : g ∈ (place p text).head?) : g.position = p := by
  unfold place at hg
  split at hg <;> cases hg <;> rfl

/-- The first character is the one that is written, unless that begins a line break. -/
theorem exists_place_cons (p : Position) (c : Char) (text : List Char) :
    ∃ g rest, place p (c :: text) = g :: rest ∧ (g.char = c ∨ g.char = '\n') := by
  unfold place
  split
  · exact ⟨_, _, rfl, .inr rfl⟩
  · rename_i heq
    obtain ⟨rfl, rfl⟩ := List.cons.inj heq
    exact ⟨_, _, rfl, .inl rfl⟩
  · rename_i heq
    cases heq

theorem char_mem_of_mem_place (hg : g ∈ place p text) : g.char ∈ text := by
  fun_induction place p text with
  | case1 p rest ih =>
    rcases mem_cons.mp hg with rfl | hg
    · simp
    · simp [ih hg]
  | case2 p c rest _ ih =>
    rcases mem_cons.mp hg with rfl | hg
    · simp
    · simp [ih hg]
  | case3 => cases hg

theorem placeAfter_eq (h : ∀ c ∈ text, Text.isLineBreak c = false) (p : Position) :
    placeAfter p text = p.along text.length := by
  induction text generalizing p with
  | nil => rfl
  | cons c text ih =>
    obtain ⟨hc, htext⟩ := forall_mem_cons.mp h
    simp only [Text.isLineBreak, Bool.or_eq_false_iff, beq_eq_false_iff_ne] at hc
    change placeAfter (p.after c) text = _
    rw [ih htext, Position.after, if_neg hc.1, if_neg hc.2, length_cons, Position.along, Nat.add_assoc, Nat.add_assoc,
      Nat.add_comm 1]
    rfl

end Glyph

namespace Line

open Glyph Text

variable (stop start : Position) {c : Char} {gs : List Glyph} {digits text : List Char} {margin : Margin}
  {backslash mark g : Glyph}

theorem codeUnit?_of_spellsUnit (h : SpellsUnit digits unit) (hgs : chars gs = digits) (rest : List Glyph) :
    codeUnit? (gs ++ rest) = some unit ∧ (gs ++ rest).drop 4 = rest := by
  cases h with
  | digits ha hb hc hd =>
    obtain ⟨a, bs, rfl, rfl, hbs⟩ := map_eq_cons_iff.mp hgs
    obtain ⟨b, cs, rfl, rfl, hcs⟩ := map_eq_cons_iff.mp hbs
    obtain ⟨c, ds, rfl, rfl, hds⟩ := map_eq_cons_iff.mp hcs
    obtain ⟨d, rfl, rfl⟩ := map_eq_singleton_iff.mp hds
    refine ⟨?_, rfl⟩
    simp [codeUnit?_eq, chars, hexUnit?, hexDigit?_of_isHexDigit ha, hexDigit?_of_isHexDigit hb,
      hexDigit?_of_isHexDigit hc, hexDigit?_of_isHexDigit hd]

theorem simpleEscape?_of_mem {mark : Char} (h : (mark, c) ∈ shortEscapes) : simpleEscape? mark = some c := by
  have htable : ∀ e ∈ shortEscapes, (simpleEscape? e.1 == some e.2) := all_eq_true.mp rfl
  exact eq_of_beq (htable (mark, c) h)

theorem readEscape_short (hmark : (mark.char, c) ∈ shortEscapes) (rest : List Glyph) :
    readEscape stop start (mark :: rest) = ⟨[c], [], rest⟩ := by
  simp only [readEscape, simpleEscape?_of_mem hmark]

theorem not_surrogate (c : Char) : Utf16.isHighSurrogate c.toNat = false ∧ Utf16.isLowSurrogate c.toNat = false := by
  have hvalid : c.toNat < 0xD800 ∨ 0xDFFF < c.toNat ∧ c.toNat < 0x110000 := c.valid
  simp only [Utf16.isHighSurrogate, Utf16.isLowSurrogate, Bool.and_eq_false_iff, decide_eq_false_iff_not]
  omega

theorem readEscape_u (hmark : mark.char = 'u') (rest : List Glyph) :
    readEscape stop start (mark :: rest) = readUnicodeEscape stop start rest := by
  have hnone : simpleEscape? 'u' = none := rfl
  simp only [readEscape, hmark, hnone, if_true]

theorem readUnicodeEscape_unit (hdigits : SpellsUnit digits c.toNat) (hgs : chars gs = digits) (rest : List Glyph) :
    readUnicodeEscape stop start (gs ++ rest) = ⟨[c], [], rest⟩ := by
  obtain ⟨hunit, hdrop⟩ := codeUnit?_of_spellsUnit hdigits hgs rest
  obtain ⟨hhigh, hlow⟩ := not_surrogate c
  simp [readUnicodeEscape, hunit, hdrop, hhigh, hlow]

theorem readUnicodeEscape_surrogates {high low : List Char} (hc : 0x10000 ≤ c.toNat)
    (hhigh : SpellsUnit high (0xD800 + (c.toNat - 0x10000) / 0x400))
    (hlow : SpellsUnit low (0xDC00 + (c.toNat - 0x10000) % 0x400)) {hs : List Glyph}
    (hgs : chars gs = high) (hbackslash : backslash.char = '\\') (hmark : mark.char = 'u')
    (hhs : chars hs = low) (rest : List Glyph) :
    readUnicodeEscape stop start (gs ++ backslash :: mark :: (hs ++ rest)) = ⟨[c], [], rest⟩ := by
  have hvalid : c.toNat < 0xD800 ∨ 0xDFFF < c.toNat ∧ c.toNat < 0x110000 := c.valid
  obtain ⟨hunit, hdrop⟩ := codeUnit?_of_spellsUnit hhigh hgs (backslash :: mark :: (hs ++ rest))
  obtain ⟨hunit', hdrop'⟩ := codeUnit?_of_spellsUnit hlow hhs rest
  have hisHigh : Utf16.isHighSurrogate (0xD800 + (c.toNat - 0x10000) / 0x400) := by
    simp only [Utf16.isHighSurrogate, Bool.and_eq_true, decide_eq_true_eq]
    omega
  have hisLow : Utf16.isLowSurrogate (0xDC00 + (c.toNat - 0x10000) % 0x400) := by
    simp only [Utf16.isLowSurrogate, Bool.and_eq_true, decide_eq_true_eq]
    omega
  have hescaped : escapedLowSurrogate? (backslash :: mark :: (hs ++ rest)) =
      some (0xDC00 + (c.toNat - 0x10000) % 0x400) := by
    simp [escapedLowSurrogate?_eq _ hbackslash hmark, hunit', Option.filter, hisLow]
  have hcombine : Utf16.combine (0xD800 + (c.toNat - 0x10000) / 0x400) (0xDC00 + (c.toNat - 0x10000) % 0x400) = c := by
    rw [Utf16.combine]
    have hsum : 0x10000 + (0xD800 + (c.toNat - 0x10000) / 0x400 - 0xD800) * 0x400 +
        (0xDC00 + (c.toNat - 0x10000) % 0x400 - 0xDC00) = c.toNat := by omega
    rw [hsum, Char.ofNat_toNat]
  have hbehind : (backslash :: mark :: (hs ++ rest)).drop 6 = rest := hdrop'
  simp only [readUnicodeEscape, hunit, hdrop, hisHigh, if_true, hescaped, hcombine, hbehind]

/-- What is read, with a character before it and what is noted of that. -/
def withChar (c : Char) (notes : List Note) (more : Read (List Piece)) : Read (List Piece) :=
  ⟨.char c :: more.value, notes ++ more.notes, more.rest⟩

theorem readPieces_plain (margin : Margin) (start : Position)
    (hg : g.char ∉ ['"', '\\', '$', '%', '\t', '\n', '\r']) (rest : List Glyph) :
    readPieces stop margin start '"' (g :: rest) = withChar g.char [] (readPieces stop margin start '"' rest) := by
  simp only [mem_cons, not_mem_nil, or_false, not_or] at hg
  obtain ⟨hquote, hbackslash, hdollar, hpercent, -, hfeed, hreturn⟩ := hg
  have hbreak : ¬ g.isLineBreak := by simp [Glyph.isLineBreak_char, Text.isLineBreak, hfeed, hreturn]
  have hreference := referenceInText_of_ne rest hdollar hpercent
  rw [readPieces, if_neg hquote, if_neg hbreak, if_neg (by simp [hbackslash]), if_neg (by simp [hreference])]
  rfl

theorem readPieces_escape (margin : Margin) (start : Position)
    (hbackslash : backslash.char = '\\') {rest : List Glyph}
    {notes : List Note} (hescape : readEscape stop backslash.position gs = ⟨[c], notes, rest⟩) :
    readPieces stop margin start '"' (backslash :: gs) = withChar c notes (readPieces stop margin start '"' rest) := by
  have hquote : ¬ backslash.char = '"' := by simp [hbackslash]
  have hbreak : ¬ backslash.isLineBreak := by simp [Glyph.isLineBreak_char, Text.isLineBreak, hbackslash]
  rw [readPieces, if_neg hquote, if_neg hbreak, if_pos (by simp [hbackslash])]
  simp only [hescape]
  rfl

theorem exists_place_spaces (n : Nat) (p : Position) (text : List Char) :
    ∃ spaces q, place p (List.replicate n ' ' ++ text) = spaces ++ place q text ∧ spaces.length = n ∧
      (∀ g ∈ spaces, g.char = ' ' ∧ g.position.column < p.column + n) ∧ q.column = p.column + n := by
  induction n generalizing p with
  | zero => exact ⟨[], p, rfl, rfl, forall_mem_nil _, rfl⟩
  | succ n ih =>
    have hcolumn : (p.after ' ').column = p.column + 1 := rfl
    obtain ⟨spaces, q, hplace, hlength, hspaces, hq⟩ := ih (p.after ' ')
    refine ⟨plain ' ' p :: spaces, q, ?_, by rw [length_cons, hlength], ?_, ?_⟩
    · rw [replicate_succ, cons_append, place_cons_of_ne (by decide), hplace]
      rfl
    · refine forall_mem_cons.mpr ⟨⟨rfl, ?_⟩, fun g hg => ⟨(hspaces g hg).1, ?_⟩⟩
      · change p.column < p.column + (n + 1)
        omega
      · have := (hspaces g hg).2
        omega
    · omega

/-- A text that goes on below its opening quote has a line break there and nothing else. -/
theorem readPieces_lineBreak (hwidth : margin.width = 0) (hunit : margin.unit = none)
    {start : Position} (hstart : 0 < start.column) (hg : g.char = '\n') {p : Position}
    (hp : p.column = 1) (htab : '\t' ∉ text) :
    ∃ q, readPieces stop margin start '"' (g :: place p (List.replicate start.column ' ' ++ text)) =
      withChar '\n' [] (readPieces stop margin start '"' (place q text)) := by
  obtain ⟨spaces, q, hplace, hlength, hspaces, hq⟩ := exists_place_spaces start.column p text
  have hblank : ∀ s ∈ spaces, s.isBlank := fun s hs => by
    simp [Glyph.isBlank_char, Text.isBlank, (hspaces s hs).1]
  have hindent : (Indent.of (spaces ++ place q text)).hasTabs = false ∧
      0 < (Indent.of (spaces ++ place q text)).width := by
    have htake : (spaces ++ place q text).takeWhile Glyph.isBlank =
        spaces ++ (place q text).takeWhile Glyph.isBlank := takeWhile_append_of_pos hblank
    constructor
    · refine Bool.eq_false_iff.mpr fun hany => ?_
      obtain ⟨s, hs, htabbed⟩ := any_eq_true.mp hany
      have hchar : s.char = '\t' := eq_of_beq htabbed
      rcases mem_append.mp ((takeWhile_sublist _).subset hs) with hmem | hmem
      · rw [(hspaces s hmem).1] at hchar
        revert hchar
        decide
      · exact htab (hchar ▸ char_mem_of_mem_place hmem)
    · simp only [Indent.of, htake, length_append, hlength]
      omega
  have hdrop : dropUpToColumn start.column (spaces ++ place q text) = place q text := by
    rw [dropUpToColumn, dropWhile_append_of_pos]
    · cases hrest : place q text with
      | nil => rfl
      | cons next rest =>
        have hposition : next.position = q := position_of_head?_place (by rw [hrest]; rfl)
        refine dropWhile_cons_of_neg ?_
        have hcolumn : ¬ next.position.column ≤ start.column := by
          rw [hposition, hq]
          omega
        simp [hcolumn]
    · intro s hs
      have hcolumn : s.position.column ≤ start.column := by
        have := (hspaces s hs).2
        omega
      simp [hblank s hs, hcolumn]
  have hcheck : margin.check stop (spaces ++ place q text) = [] := by
    simp [Margin.check, hindent.1, hunit]
  have hgoes : (atLineEnd (dropBlanks (spaces ++ place q text)) ||
      margin.continues (spaces ++ place q text)) = true := by
    cases hend : atLineEnd (dropBlanks (spaces ++ place q text)) with
    | true => rfl
    | false => simp [Margin.continues, hend, hwidth, hindent.2]
  have hquote : ¬ g.char = '"' := by simp [hg]
  have hbreak : g.isLineBreak := by simp [Glyph.isLineBreak_char, Text.isLineBreak, hg]
  refine ⟨q, ?_⟩
  rw [hplace, readPieces, if_neg hquote, if_pos hbreak, if_pos hgoes, hdrop, hcheck]
  rfl

theorem exists_readPieces_of_spelling (hwidth : margin.width = 0) (hunit : margin.unit = none)
    {start : Position} (hstart : 0 < start.column) {written : List Char} (h : Spelling start.column c written)
    (p : Position) (htab : '\t' ∉ text) :
    ∃ q, readPieces stop margin start '"' (place p (written ++ text)) =
      withChar c [] (readPieces stop margin start '"' (place q text)) := by
  cases h with
  | plain hc =>
    have hreturn : c ≠ '\r' := by
      rintro rfl
      simp at hc
    rw [singleton_append, place_cons_of_ne hreturn]
    exact ⟨p.after c, readPieces_plain stop margin start hc _⟩
  | @short _ mark hmark =>
    have hreturn : mark ≠ '\r' := by
      rintro rfl
      simp [shortEscapes] at hmark
    rw [cons_append, singleton_append, place_cons_of_ne (by decide), place_cons_of_ne hreturn]
    exact ⟨_, readPieces_escape stop margin start rfl (readEscape_short stop _ hmark _)⟩
  | unit hdigits =>
    have hreturn := hdigits.not_mem (show hexDigit? '\r' = none from rfl)
    rw [cons_append, cons_append, place_cons_of_ne (by decide), place_cons_of_ne (by decide),
      place_append (.inl hreturn)]
    exact ⟨_, readPieces_escape stop margin start rfl ((readEscape_u stop _ rfl _).trans
      (readUnicodeEscape_unit stop _ hdigits (chars_place hreturn _) _))⟩
  | surrogates hc hhigh hlow =>
    have hreturn := hhigh.not_mem (show hexDigit? '\r' = none from rfl)
    have hreturn' := hlow.not_mem (show hexDigit? '\r' = none from rfl)
    rw [cons_append, cons_append, append_assoc, cons_append, cons_append,
      place_cons_of_ne (by decide), place_cons_of_ne (by decide), place_append (.inl hreturn),
      place_cons_of_ne (by decide), place_cons_of_ne (by decide), place_append (.inl hreturn')]
    exact ⟨_, readPieces_escape stop margin start rfl ((readEscape_u stop _ rfl _).trans
      (readUnicodeEscape_surrogates stop _ hc hhigh hlow (chars_place hreturn _) rfl rfl (chars_place hreturn' _) _))⟩
  | lineBreak hending =>
    rw [append_assoc]
    rcases hending with rfl | rfl
    · rw [singleton_append, place_cons_of_ne (by decide)]
      exact readPieces_lineBreak stop hwidth hunit hstart rfl rfl htab
    · exact readPieces_lineBreak stop hwidth hunit hstart rfl rfl htab

end Line

namespace Text

variable {column : Nat} {written : List Char} {c : Char}

theorem Spelling.tab_not_mem (h : Spelling column c written) : '\t' ∉ written := by
  cases h with
  | plain hc =>
    rintro hmem
    obtain rfl := mem_singleton.mp hmem
    simp at hc
  | short hmark =>
    intro hmem
    simp only [mem_cons, not_mem_nil, or_false] at hmem
    rcases hmem with hmem | rfl
    · revert hmem
      decide
    · simp [shortEscapes] at hmark
  | unit hdigits => simp [hdigits.not_mem (show hexDigit? '\t' = none from rfl)]
  | surrogates _ hhigh hlow =>
    simp [hhigh.not_mem (show hexDigit? '\t' = none from rfl), hlow.not_mem (show hexDigit? '\t' = none from rfl)]
  | lineBreak hending => rcases hending with rfl | rfl <;> simp

/-- What is written for a character does not begin with a quote. -/
theorem Spelling.exists_cons (h : Spelling column c written) : ∃ d more, written = d :: more ∧ d ≠ '"' := by
  cases h with
  | plain hc =>
    refine ⟨_, [], rfl, ?_⟩
    rintro rfl
    simp at hc
  | short _ => exact ⟨_, _, rfl, by decide⟩
  | unit _ => exact ⟨_, _, rfl, by decide⟩
  | surrogates _ _ _ => exact ⟨_, _, rfl, by decide⟩
  | lineBreak hending => rcases hending with rfl | rfl <;> exact ⟨_, _, rfl, by decide⟩

theorem Spelled.head_ne {content : List Char} (h : Spelled column content written) : '"' ∉ written.head? := by
  cases h with
  | nil => simp
  | cons hc _ =>
    obtain ⟨d, more, rfl, hd⟩ := hc.exists_cons
    simpa using hd

theorem Spelled.tab_not_mem {content : List Char} (h : Spelled column content written) : '\t' ∉ written := by
  induction h with
  | nil => simp
  | cons hc _ ih => simp [hc.tab_not_mem, ih]

end Text

namespace Line

open Glyph Text

variable (stop : Position) {content written tail : List Char}

theorem exists_readPieces_of_spelled (hwidth : margin.width = 0) (hunit : margin.unit = none)
    {start : Position} (hstart : 0 < start.column) (h : Text.Spelled start.column content written) (p : Position)
    (htab : '\t' ∉ tail) : ∃ q, readPieces stop margin start '"' (place p (written ++ '"' :: tail)) =
      ⟨content.map .char, [], place q tail⟩ := by
  induction h generalizing p with
  | nil =>
    refine ⟨p.after '"', ?_⟩
    rw [nil_append, place_cons_of_ne (by decide), readPieces, if_pos (plain_char ..)]
    rfl
  | @cons c content written more hc hmore ih =>
    have htabs : '\t' ∉ more ++ '"' :: tail := by simp [hmore.tab_not_mem, htab]
    obtain ⟨p', hread⟩ := exists_readPieces_of_spelling stop hwidth hunit hstart hc p htabs
    obtain ⟨q, hrest⟩ := ih p'
    refine ⟨q, ?_⟩
    rw [append_assoc, hread, hrest]
    rfl

/-- The quotes around a text at the end of a line do not begin a comment. -/
theorem atComment_of_quoted {opening : Glyph} (hopening : opening.char = '"') (hwritten : '"' ∉ written.head?)
    (p : Position) (htail : tail = [] ∨ tail = ['\n']) :
    atComment (opening :: place p (written ++ '"' :: tail)) = false := by
  cases written with
  | nil => rcases htail with rfl | rfl <;> simp [place, atComment_eq, chars, isCommentMark, hopening]
  | cons d more =>
    obtain ⟨g, rest, hplace, hg⟩ := exists_place_cons p d (more ++ '"' :: tail)
    have hquote : g.char ≠ '"' := by
      rcases hg with hg | hg
      · rw [hg]
        rintro rfl
        exact hwritten rfl
      · simp [hg]
    rw [cons_append, hplace]
    cases rest <;> simp [atComment_eq, chars, isCommentMark, hopening, hquote]

end Line

/-- A pair with a text in double quotes. -/
def Word.quotedPair (name : Word) (written : List Char) : List Char :=
  name.chars ++ ' ' :: '=' :: ' ' :: '"' :: (written ++ ['"'])

namespace Line

open Glyph Text

variable {content written tail : List Char}

/-- Between quotes of which the first is in `column`, this is read as the content, and `P` is true of what is
    noted. -/
structure ReadsAs (column : Nat) (written content tail : List Char) (P : List Note → Prop) : Prop where
  head_ne : '"' ∉ written.head?
  exists_readPieces : ∀ stop start p, start.column = column → ∃ notes q, P notes ∧
    readPieces stop ⟨none, 0⟩ start '"' (place p (written ++ '"' :: tail)) = ⟨content.map .char, notes, place q tail⟩

/-- The items behind a name that begins a line: one pair with the text. -/
theorem exists_readItems_of_pieces (stop : Position) {name : Word} {letters gs rest : List Glyph}
    (hletters : chars letters = name.chars) {space mark gap opening : Glyph} (hspace : space.char = ' ')
    (hmark : mark.char = '=') (hgap : gap.char = ' ') (hopening : opening.char = '"')
    (hcomment : atComment (opening :: gs) = false) {notes : List Note}
    (hpieces : readPieces stop margin opening.position '"' gs = ⟨content.map .char, notes, rest⟩)
    (hend : atLineEnd rest) :
    ∃ item : PairItem, { item with notes := [] }.Tells name (some (String.ofList content, .doubleQuoted)) ∧
      item.notes = notes ∧
      readItems stop margin [] false (letters ++ space :: mark :: gap :: opening :: gs) = ([.pair item], rest) := by
  have hvalue : readValue stop margin false (gap :: opening :: gs) =
      ⟨.text (String.ofList content) .doubleQuoted, notes, rest⟩ := by
    rw [readValue_of_quote stop margin false hgap hopening hcomment]
    exact readQuoted_of_chars stop margin hopening hpieces
  obtain ⟨head, item, hitem, hnotes, hhead, hvacant, hbody⟩ :=
    exists_item_of_text stop margin false hletters hspace hmark hgap hvalue
  have hdelimiter : item.head.delimiter =
      if (some (String.ofList content, ValueKind.doubleQuoted)).isSome then .equal else .colon := hitem.delimiter_eq
  refine ⟨item, hitem, hnotes, ?_⟩
  rw [readItems_of_item stop margin [] hletters hdelimiter hhead hvacant hbody,
    readItems_of_atLineEnd stop margin _ hend]

theorem exists_ofText_quotedPair (name : Word) {P : List Note → Prop}
    (h : ReadsAs (name.chars.length + 4) written content tail P) (htail : tail = [] ∨ tail = ['\n']) :
    ∃ lead, ∃ item : PairItem, { item with notes := [] }.Tells name (some (String.ofList content, .doubleQuoted)) ∧
      P item.notes ∧ ofText (name.quotedPair written ++ tail) = [.content 0 lead [.pair item]] := by
  let stop := placeAfter .start (name.quotedPair written ++ tail)
  let before := placeAfter .start name.chars
  let opening := plain '"' (((before.after ' ').after '=').after ' ')
  let text := place (opening.position.after '"') (written ++ '"' :: tail)
  let body := place .start name.chars ++ plain ' ' before :: plain '=' (before.after ' ') ::
    plain ' ' ((before.after ' ').after '=') :: opening :: text
  have hcolumn : opening.position.column = name.chars.length + 4 := by
    have hname : before.column = 1 + name.chars.length := congrArg Position.column (placeAfter_eq (fun c hc => by
      have hne := fun d => ne_of_isAlphanum (d := d) (name.isAlphanum c hc)
      simp [Text.isLineBreak, hne '\n', hne '\r']) _)
    change before.column + 1 + 1 + 1 = _
    omega
  have hplace : place .start (name.quotedPair written ++ tail) = body := by
    simp only [Word.quotedPair, append_assoc, cons_append, nil_append]
    rw [place_append (.inl name.return_not_mem), place_cons_of_ne (by decide), place_cons_of_ne (by decide),
      place_cons_of_ne (by decide), place_cons_of_ne (by decide)]
    rfl
  have hletters : chars (place .start name.chars) = name.chars := chars_place name.return_not_mem _
  have hbody : ∃ g more, body = g :: more ∧ g.char.isAlphanum := by
    obtain ⟨g, more, hmore, hg⟩ := exists_letter hletters
    exact ⟨g, _, congrArg (· ++ _) hmore, hg⟩
  obtain ⟨notes, q, hnotes, hpieces⟩ := h.exists_readPieces stop opening.position (opening.position.after '"') hcolumn
  have hend : atLineEnd (place q tail) := by rcases htail with rfl | rfl <;> rfl
  obtain ⟨item, hitem, rfl, hread⟩ : ∃ item : PairItem,
      { item with notes := [] }.Tells name (some (String.ofList content, .doubleQuoted)) ∧ item.notes = notes ∧
        readItems stop ⟨none, 0⟩ [] false body = ([.pair item], place q tail) :=
    exists_readItems_of_pieces stop hletters rfl rfl rfl rfl (atComment_of_quoted rfl h.head_ne _ htail) hpieces hend
  -- the line is not indented, and no unit of indentation is known before it
  have hfits : Layout.initial.Fits ⟨false, 1⟩ := .inl ⟨rfl, Nat.zero_le _⟩
  have hblanks : chars [] = IndentUnit.blanks ⟨false, 1⟩ 0 := rfl
  obtain ⟨lead, _, next, rfl, -, -, hline⟩ := readLine_of_items stop Nat.one_pos hfits (Nat.zero_le _) hblanks hbody
    (P := (· = [.pair item])) (fun next span hmeasure => by
      obtain rfl : none = next := by simpa [Layout.measure, IndentUnit.indent, Layout.initial] using hmeasure
      exact ⟨_, rfl, rfl, hread⟩) hend
  have hrest : dropLineBreak (place q tail) = [] := by rcases htail with rfl | rfl <;> rfl
  refine ⟨lead, item, hitem, hnotes, ?_⟩
  rw [hrest] at hline
  rw [ofText_eq, hplace, ← nil_append body, readLines_of_readLine hline, readLines_nil, append_nil]

end Line

/-- The pair has this name, this text in double quotes for its value, and nothing is inserted into it. -/
structure Pair.Quotes (pair : Pair) (name : Word) (content : List Char) : Prop where
  kind_eq : pair.kind = .element
  name_eq : pair.name = some (String.ofList name.chars)
  nsPrefix_eq : pair.nsPrefix = none
  delimiter_eq : pair.delimiter = .equal
  value_eq : pair.value = some (String.ofList content)
  valueKind_eq : pair.valueKind = .doubleQuoted
  items_eq : pair.items = none

/-- The pair has this name and this text for its value. -/
structure Pair.Bears (pair : Pair) (name : Word) (delimiter : Delimiter) (content : String) (kind : ValueKind) :
    Prop where
  kind_eq : pair.kind = .element
  name_eq : pair.name = some (String.ofList name.chars)
  nsPrefix_eq : pair.nsPrefix = none
  delimiter_eq : pair.delimiter = delimiter
  value_eq : pair.value = some content
  valueKind_eq : pair.valueKind = kind
  items_eq : pair.items = none

namespace Builder

variable {b b' : Builder} {site : Site} {parent x : PairId} {inGroup : Bool} {item : PairItem}

theorem reportAll_eq (b : Builder) (site : Site) (notes : List Note) :
    b.reportAll site notes = { b with log := b.log ++ notes.map (·.reported site.file site.fileIndex) } := by
  induction notes generalizing b with
  | nil => simp [reportAll]
  | cons note notes ih =>
    change (b.report site note).reportAll site notes = _
    rw [ih, map_cons, ← singleton_append, ← append_assoc]
    rfl

/-- What is wrong with a text is reported of its pair and changes nothing else. -/
theorem addPair_noted {content : String} {kind : ValueKind} (hvalue : item.value = some (.text content kind))
    (h : b.addPair site parent inGroup { item with notes := [] } = .ok (x, b')) :
    b.addPair site parent inGroup item = .ok (x, b'.reportAll site item.notes) := by
  simp only [addPair, hvalue] at h ⊢
  obtain ⟨c, hattach, h⟩ := bind_eq_ok.mp h
  rw [hattach]
  cases h
  simp only [reportAll_eq, Option.elim_some, setValue, setText, modify, map_nil, append_nil]
  rfl

end Builder

variable (set : ModuleSet) (file : String) (format : Format)

open Builder PairTree in
/-- A text with one line of one pair makes a module with one implicit document, which holds this pair alone. What is
    wrong with its value is reported. -/
theorem ModuleSet.exists_parse_of_noted {text : List Char}
    {lead : Span} {item : PairItem} (hlines : Line.ofText text = [.content 0 lead [.pair item]]) {name : Word}
    {delimiter : Delimiter} {content : String} {kind : ValueKind}
    (hitem : { item with notes := [] }.Bears name delimiter (some (content, kind))) (hplain : delimiter.IsPlain) :
    ∃ tree doc x, set.parse file format text = ⟨item.notes.map (·.reported file (set.nextSite file format).fileIndex),
          .ok ⟨tree, set.modules ++ [set.tree.size]⟩⟩ ∧
      tree.contentChildren set.tree.size = [doc] ∧ isImplicitDocument (tree.kind doc) ∧
      tree.contentChildren doc = [x] ∧ tree.contentChildren x = [] ∧
      (tree.get x).Bears name delimiter content kind := by
  have hready := set.ready_opened file format
  have hlists := set.lists_opened file format
  have hblock : (set.opened file format).blocks[0]? = some set.tree.size := rfl
  obtain ⟨tree, hadd, hsettled, hlt, hsame, hlisted, hsaid, hchildren⟩ :=
    exists_addPair hready hlists hblock hitem hplain
  have hvalue : item.value = some (.text content kind) := hitem.value_eq
  have hnoted := addPair_noted hvalue hadd
  rw [reportAll_eq] at hnoted
  have hline := addLine_pair hlists hblock hnoted lead
  have hfold : (Line.ofText text).foldlM (addLine (set.nextSite file format)) (set.opened file format) =
      .ok ⟨tree, [set.tree.size, (set.opened file format).tree.size],
        item.notes.map (·.reported file (set.nextSite file format).fileIndex)⟩ := by
    rw [hlines, foldlM_cons, hline]
    rfl
  have hroot : set.tree.size < tree.size := hready.root_lt.trans_le hsame.size_le
  have hparse := parse_eq_of_lines hfold rfl (finish_eq_self hsettled hroot)
  have hdelimiter : item.head.delimiter = delimiter := hitem.delimiter_eq
  simp only [Format.makePair, hitem.interpret_eq, hdelimiter] at hsaid
  cases hlisted with
  | document hdoc =>
    exact ⟨tree, _, _, hparse, hdoc.root_eq, hdoc.isImplicit, hdoc.children_eq, hchildren,
      { kind_eq := (congrArg Pair.kind hsaid :)
        name_eq := (congrArg Pair.name hsaid :)
        nsPrefix_eq := (congrArg Pair.nsPrefix hsaid :)
        delimiter_eq := (congrArg Pair.delimiter hsaid :)
        value_eq := (congrArg Pair.value hsaid :)
        valueKind_eq := (congrArg Pair.valueKind hsaid :)
        items_eq := (congrArg Pair.items hsaid :) }⟩

theorem ModuleSet.exists_parse_of_pair {text : List Char}
    {lead : Span} {item : PairItem} (hlines : Line.ofText text = [.content 0 lead [.pair item]]) {name : Word}
    {delimiter : Delimiter} {content : String} {kind : ValueKind}
    (hitem : item.Bears name delimiter (some (content, kind))) (hplain : delimiter.IsPlain) :
    ∃ tree doc x, set.parse file format text = ⟨[], .ok ⟨tree, set.modules ++ [set.tree.size]⟩⟩ ∧
      tree.contentChildren set.tree.size = [doc] ∧ Builder.isImplicitDocument (tree.kind doc) ∧
      tree.contentChildren doc = [x] ∧ tree.contentChildren x = [] ∧
      (tree.get x).Bears name delimiter content kind := by
  have h := set.exists_parse_of_noted file format hlines { hitem with notes_eq := rfl } hplain
  rwa [hitem.notes_eq] at h

theorem ModuleSet.exists_parse_quotedPair (name : Word) {content written tail : List Char} {P : List Note → Prop}
    (h : Line.ReadsAs (name.chars.length + 4) written content tail P) (htail : tail = [] ∨ tail = ['\n']) :
    ∃ tree doc x notes, P notes ∧ set.parse file format (name.quotedPair written ++ tail) =
        ⟨notes.map (·.reported file (set.nextSite file format).fileIndex),
          .ok ⟨tree, set.modules ++ [set.tree.size]⟩⟩ ∧
      tree.contentChildren set.tree.size = [doc] ∧ Builder.isImplicitDocument (tree.kind doc) ∧
      tree.contentChildren doc = [x] ∧ tree.contentChildren x = [] ∧ (tree.get x).Quotes name content := by
  obtain ⟨lead, item, hitem, hnotes, hlines⟩ := Line.exists_ofText_quotedPair name h htail
  obtain ⟨tree, doc, x, hparse, hroot, himplicit, hdoc, hleaf, hpair⟩ :=
    set.exists_parse_of_noted file format hlines hitem (.inl rfl)
  exact ⟨tree, doc, x, _, hnotes, hparse, hroot, himplicit, hdoc, hleaf, ⟨hpair.kind_eq, hpair.name_eq,
    hpair.nsPrefix_eq, hpair.delimiter_eq, hpair.value_eq, hpair.valueKind_eq, hpair.items_eq⟩⟩

namespace Session

/-- A text in double quotes is read back as the value of the only pair, without a diagnostic, in whichever
    ways its characters are written. -/
theorem parse_quotedPair (s : Session) (file : String) (format : Format) (name : Word)
    {content written tail : List Char} (h : Text.Spelled (name.chars.length + 4) content written)
    (htail : tail = [] ∨ tail = ['\n']) :
    ∃ set doc x, (s.set.parse file format (name.quotedPair written ++ tail)).log = [] ∧
      s.parse ⟨file, format, name.quotedPair written ++ tail⟩ = .ok ⟨set, s.collection⟩ ∧
      set.modules = s.set.modules ++ [s.set.tree.size] ∧
      set.tree.contentChildren s.set.tree.size = [doc] ∧
      Builder.isImplicitDocument (set.tree.kind doc) = true ∧
      set.tree.contentChildren doc = [x] ∧ set.tree.contentChildren x = [] ∧
      (set.tree.get x).Quotes name content := by
  have htab : '\t' ∉ tail := by rcases htail with rfl | rfl <;> simp
  have hread : Line.ReadsAs (name.chars.length + 4) written content tail (· = []) :=
    ⟨h.head_ne, fun stop start p hcolumn => ⟨[], by
      simpa using Line.exists_readPieces_of_spelled stop rfl rfl (by omega) (hcolumn ▸ h) p htab⟩⟩
  obtain ⟨tree, doc, x, _, rfl, hparse, hroot, himplicit, hdoc, hleaf, hquotes⟩ :=
    s.set.exists_parse_quotedPair file format name hread htail
  rw [map_nil] at hparse
  refine ⟨⟨tree, s.set.modules ++ [s.set.tree.size]⟩, doc, x, ?_, ?_, rfl, hroot, himplicit, hdoc, hleaf,
    hquotes⟩
  · rw [hparse]
  · simp only [parse_eq_accept, hparse, accept, Collection.receiveAll]

theorem sampleName_ne_nil : ['t'] ≠ [] := cons_ne_nil 't' []

theorem sampleName_isAlphanum : ∀ c ∈ ['t'], c.isAlphanum := all_eq_true.mp rfl

def sampleName : Word := ⟨['t'], sampleName_ne_nil, sampleName_isAlphanum⟩

def sampleContent : List Char := ['é', '"', '$', '\n', '\n', '\n', '😀', '😀', '/', 'A']

/-- Each way to write a character, and three of them for line feeds. -/
def sampleWritten : List Char :=
  ("é\\\"\\$\\n\\u000a\n     😀\\uD83d\\uDE00/\\u0041").toList

theorem spelled_sample : Text.Spelled (sampleName.chars.length + 4) sampleContent sampleWritten := by
  have hfeed : Text.SpellsUnit ['0', '0', '0', 'a'] '\n'.toNat :=
    .digits (i := 0) (j := 0) (k := 0) (l := 10) (.inl rfl) (.inl rfl) (.inl rfl) (.inl rfl)
  have hhigh : Text.SpellsUnit ['D', '8', '3', 'd'] (0xD800 + ('😀'.toNat - 0x10000) / 0x400) :=
    .digits (i := 13) (j := 8) (k := 3) (l := 13) (.inr rfl) (.inl rfl) (.inl rfl) (.inl rfl)
  have hlow : Text.SpellsUnit ['D', 'E', '0', '0'] (0xDC00 + ('😀'.toNat - 0x10000) % 0x400) :=
    .digits (i := 13) (j := 14) (k := 0) (l := 0) (.inr rfl) (.inr rfl) (.inl rfl) (.inl rfl)
  have hletter : Text.SpellsUnit ['0', '0', '4', '1'] 'A'.toNat :=
    .digits (i := 0) (j := 0) (k := 4) (l := 1) (.inl rfl) (.inl rfl) (.inl rfl) (.inl rfl)
  exact .cons (.plain (c := 'é') (by decide)) <| .cons (.short (c := '"') (by decide)) <|
    .cons (.short (c := '$') (by decide)) <| .cons (.short (c := '\n') (by decide)) <| .cons (.unit hfeed) <|
    .cons (.lineBreak (.inl rfl)) <| .cons (.plain (c := '😀') (by decide)) <|
    .cons (.surrogates (by decide) hhigh hlow) <| .cons (.plain (c := '/') (by decide)) <|
    .cons (.unit hletter) .nil

theorem sample_read_back : sampleName.quotedPair sampleWritten ++ ['\n'] =
        "t = \"é\\\"\\$\\n\\u000a\n     😀\\uD83d\\uDE00/\\u0041\"\n".toList ∧
      Text.Spelled (sampleName.chars.length + 4) sampleContent sampleWritten ∧
      ∃ set doc x, ((start none).set.parse "t" .json (sampleName.quotedPair sampleWritten ++ ['\n'])).log = [] ∧
        (start none).parse ⟨"t", .json, sampleName.quotedPair sampleWritten ++ ['\n']⟩ = .ok ⟨set, .empty none⟩ ∧
        set.modules = [0] ∧ set.tree.contentChildren 0 = [doc] ∧
        Builder.isImplicitDocument (set.tree.kind doc) = true ∧ set.tree.contentChildren doc = [x] ∧
        set.tree.contentChildren x = [] ∧ (set.tree.get x).Quotes sampleName sampleContent :=
  ⟨by decide +kernel, spelled_sample, parse_quotedPair (start none) "t" .json sampleName spelled_sample (.inr rfl)⟩

end Session

end PairMarkup
