import PairMarkup.Proofs.Limit
import PairMarkup.Proofs.Quoting

namespace PairMarkup

open List

namespace Text

/-- A code unit with the digits that spell it. -/
structure Escape where
  digits : List Char
  unit : Nat
  spells : SpellsUnit digits unit

namespace Escape

def writeAll (escapes : List Escape) : List Char := escapes.flatMap fun escape => '\\' :: 'u' :: escape.digits

def units (escapes : List Escape) : List Nat := escapes.map unit

theorem units_cons (e : Escape) (es : List Escape) : units (e :: es) = e.unit :: units es := rfl

end Escape

namespace Utf16

variable {u v before : Nat} {units : List Nat}

/-- A high surrogate comes first and is followed by a low one. -/
def startsPair : List Nat → Bool
  | u :: v :: _ => isHighSurrogate u && isLowSurrogate v
  | _ => false

/-- The surrogates without a partner: high ones with no low one behind them, and low ones with no high one before
    them. The first unit stands behind `before`. -/
def unpaired (before : Nat) : List Nat → List Nat
  | [] => []
  | u :: units =>
    if isHighSurrogate u && !startsPair (u :: units) || isLowSurrogate u && !isHighSurrogate before then
      u :: unpaired u units
    else unpaired u units

theorem isHighSurrogate_of_low (h : isLowSurrogate u) : isHighSurrogate u = false := by
  simp only [isLowSurrogate, Bool.and_eq_true, decide_eq_true_eq] at h
  simp only [isHighSurrogate, Bool.and_eq_false_iff, decide_eq_false_iff_not]
  omega

theorem startsPair_cons (h : isHighSurrogate u = false) : startsPair (u :: units) = false := by
  cases units <;> simp [startsPair, h]

theorem unpaired_pair (h : startsPair (u :: v :: units)) : unpaired before (u :: v :: units) = unpaired v units := by
  obtain ⟨hu, hv⟩ := Bool.and_eq_true_iff.mp h
  have hlow : isLowSurrogate u = false := Bool.eq_false_iff.mpr fun hlow => by simp [isHighSurrogate_of_low hlow] at hu
  simp [unpaired, h, hu, hlow, isHighSurrogate_of_low hv]

/-- A unit that does not start a pair is decoded by itself. -/
theorem decode_cons (h : startsPair (u :: units) = false) : decode (u :: units) = decode [u] ++ decode units := by
  cases units with
  | nil => rw [decode, append_nil]
  | cons v units =>
    by_cases hu : isHighSurrogate u <;> by_cases hlow : isLowSurrogate u <;> simp_all [decode, startsPair]

theorem unpaired_cons (h : startsPair (u :: units) = false) (hbefore : startsPair (before :: u :: units) = false) :
    unpaired before (u :: units) =
      (if isHighSurrogate u || isLowSurrogate u then [u] else []) ++ unpaired u units := by
  simp only [startsPair, Bool.and_eq_false_iff] at hbefore
  by_cases hu : isHighSurrogate u <;> by_cases hlow : isLowSurrogate u <;> simp_all [unpaired]

end Utf16

end Text

namespace Line

open Glyph Text Utf16

variable (stop start : Position) (margin : Margin) {before : Nat} {gs rest : List Glyph} (e : Escape)
  {es : List Escape} (p : Position) (tail : List Char)

/-- Each of these surrogates is noted, and nothing else is. -/
def Names (units : List Nat) (notes : List Note) : Prop := notes.map (fun note => (note.code, note.arguments)) =
    units.map fun unit => (.invalidEscapeSequence, [String.ofList ('\\' :: 'u' :: hexText unit)])

/-- The first escape is placed as a backslash, a letter and digits. -/
theorem exists_place_escapes (es : List Escape) (text : List Char) :
    ∃ backslash mark gs q, place p (Escape.writeAll (e :: es) ++ text) =
        backslash :: mark :: (gs ++ place q (Escape.writeAll es ++ text)) ∧
      backslash.char = '\\' ∧ mark.char = 'u' ∧ chars gs = e.digits := by
  have hreturn := e.spells.not_mem (show hexDigit? '\r' = none from rfl)
  have hcons : Escape.writeAll (e :: es) ++ text = '\\' :: 'u' :: (e.digits ++ (Escape.writeAll es ++ text)) := by
    simp [Escape.writeAll]
  rw [hcons, place_cons_of_ne (by decide), place_cons_of_ne (by decide), place_append (.inl hreturn)]
  exact ⟨_, _, _, _, rfl, rfl, rfl, chars_place hreturn _⟩

theorem escapedLowSurrogate?_place (es : List Escape) :
    escapedLowSurrogate? (place p (Escape.writeAll es ++ '"' :: tail)) =
      (Escape.units es).head?.filter isLowSurrogate := by
  cases es with
  | nil =>
    change escapedLowSurrogate? (place p ('"' :: tail)) = none
    rw [place_cons_of_ne (by decide)]
    rw [escapedLowSurrogate?, look_raw lowSurrogate?_upToBreak]
    cases place (p.after '"') tail <;> simp [chars, plain, lowSurrogate?]
  | cons e es =>
    obtain ⟨backslash, mark, gs, q, hplace, hbackslash, hmark, hgs⟩ := exists_place_escapes e p es ('"' :: tail)
    rw [hplace]
    simp [escapedLowSurrogate?_eq _ hbackslash hmark, (codeUnit?_of_spellsUnit e.spells hgs _).1, Escape.units]

theorem exists_readPieces_alone (halone : startsPair (Escape.units (e :: es)) = false) :
    ∃ c notes q, decode [e.unit] = [c] ∧
      Names (if isHighSurrogate e.unit || isLowSurrogate e.unit then [e.unit] else []) notes ∧
      readPieces stop margin start '"' (place p (Escape.writeAll (e :: es) ++ '"' :: tail)) =
        withChar c notes (readPieces stop margin start '"' (place q (Escape.writeAll es ++ '"' :: tail))) := by
  obtain ⟨backslash, mark, gs, q, hplace, hbackslash, hmark, hgs⟩ := exists_place_escapes e p es ('"' :: tail)
  set rest := place q (Escape.writeAll es ++ '"' :: tail)
  obtain ⟨hcode, hdrop⟩ := codeUnit?_of_spellsUnit e.spells hgs rest
  have hpartner : isHighSurrogate e.unit → escapedLowSurrogate? rest = none := fun hhigh => by
    rw [escapedLowSurrogate?_place]
    cases es <;> simp_all [Escape.units, startsPair, Option.filter]
  have hread := fun c notes (hescape : readUnicodeEscape stop backslash.position (gs ++ rest) = ⟨[c], notes, rest⟩) =>
    readPieces_escape stop margin start hbackslash ((readEscape_u stop backslash.position hmark _).trans hescape)
  rw [hplace]
  by_cases hlone : isHighSurrogate e.unit || isLowSurrogate e.unit
  · have hescape : readUnicodeEscape stop backslash.position (gs ++ rest) =
        readUnicodeEscape.unpaired stop backslash.position e.unit rest := by
      by_cases hhigh : isHighSurrogate e.unit
      · simp only [readUnicodeEscape, hcode, hdrop, hhigh, if_true, hpartner hhigh]
      · simp_all [readUnicodeEscape]
    refine ⟨replacement, _, q, by simp [decode, hlone], ?_, hread _ _ hescape⟩
    simp [hlone, Names, invalidEscape]
  · refine ⟨Char.ofNat e.unit, [], q, by simp [decode, hlone], by simp [hlone, Names], hread _ _ ?_⟩
    simp_all [readUnicodeEscape]

theorem exists_readPieces_pair {e' : Escape} (hpair : startsPair (Escape.units (e :: e' :: es))) :
    ∃ q, readPieces stop margin start '"' (place p (Escape.writeAll (e :: e' :: es) ++ '"' :: tail)) =
      withChar (combine e.unit e'.unit) []
        (readPieces stop margin start '"' (place q (Escape.writeAll es ++ '"' :: tail))) := by
  obtain ⟨hhigh, hlow⟩ := Bool.and_eq_true_iff.mp hpair
  obtain ⟨backslash, mark, gs, q, hplace, hbackslash, hmark, hgs⟩ := exists_place_escapes e p (e' :: es) ('"' :: tail)
  obtain ⟨_, _, hs, q', hplace', -, -, hhs⟩ := exists_place_escapes e' q es ('"' :: tail)
  obtain ⟨hcode, hdrop⟩ := codeUnit?_of_spellsUnit e.spells hgs (place q (Escape.writeAll (e' :: es) ++ '"' :: tail))
  have hpartner : escapedLowSurrogate? (place q (Escape.writeAll (e' :: es) ++ '"' :: tail)) = some e'.unit := by
    rw [escapedLowSurrogate?_place]
    exact if_pos hlow
  have hrest : (place q (Escape.writeAll (e' :: es) ++ '"' :: tail)).drop 6 =
      place q' (Escape.writeAll es ++ '"' :: tail) := by
    rw [hplace']
    exact (codeUnit?_of_spellsUnit e'.spells hhs _).2
  refine ⟨q', hplace ▸ readPieces_escape stop margin start hbackslash ((readEscape_u stop _ hmark _).trans ?_)⟩
  simp only [readUnicodeEscape, hcode, hdrop, hhigh, if_true, hpartner, hrest]

/-- Escaped code units are read as they are decoded, up to the closing quote. -/
theorem exists_readPieces_of_units (hbefore : startsPair (before :: Escape.units es) = false) :
    ∃ notes q, Names (unpaired before (Escape.units es)) notes ∧
      readPieces stop margin start '"' (place p (Escape.writeAll es ++ '"' :: tail)) =
        ⟨(decode (Escape.units es)).map .char, notes, place q tail⟩ := by
  -- a pair is taken at once
  induction hlength : es.length using Nat.strong_induction_on generalizing es before p with
  | _ n ih =>
    subst hlength
    cases es with
    | nil =>
      refine ⟨[], p.after '"', rfl, ?_⟩
      change readPieces stop margin start '"' (place p ('"' :: tail)) = _
      rw [place_cons_of_ne (by decide), readPieces, if_pos (plain_char ..)]
      rfl
    | cons e es =>
      cases hpair : startsPair (Escape.units (e :: es)) with
      | false =>
        have halone : startsPair (e.unit :: Escape.units es) = false := hpair
        obtain ⟨c, notes, p', hdecode, hnotes, hread⟩ := exists_readPieces_alone stop start margin e p tail hpair
        obtain ⟨more, q, hmore, hrest⟩ := ih es.length (by simp) p' hpair rfl
        refine ⟨notes ++ more, q, ?_, ?_⟩
        · rw [Escape.units_cons, unpaired_cons halone hbefore, Names, map_append, map_append, hnotes, hmore]
        · rw [hread, hrest, Escape.units_cons, decode_cons halone, hdecode]
          rfl
      | true =>
        cases es with
        | nil => cases hpair
        | cons e' es =>
          obtain ⟨hhigh, hlow⟩ := Bool.and_eq_true_iff.mp hpair
          obtain ⟨p', hread⟩ := exists_readPieces_pair stop start margin e p tail hpair
          obtain ⟨more, q, hmore, hrest⟩ :=
            ih es.length (by simp only [length_cons]; omega) p' (startsPair_cons (isHighSurrogate_of_low hlow)) rfl
          refine ⟨more, q, (unpaired_pair hpair).symm ▸ hmore, ?_⟩
          rw [hread, hrest, Escape.units_cons, Escape.units_cons, decode, if_pos hhigh, if_pos hlow]
          rfl

end Line

namespace Session

open Text Line

/-- A value in double quotes that is made of escaped code units is the text that the units are decoded to. Each
    surrogate without a partner gives one diagnostic, which names it, and there is no other. -/
theorem parse_escapedUnits (set : ModuleSet) (entries : List Diagnostic) (file : String) (format : Format)
    (name : Word) (escapes : List Escape) (ended : Bool) :
    let text := name.quotedPair (Escape.writeAll escapes) ++ if ended then ['\n'] else []
    ∃ set' log doc x, set.parse file format text = ⟨log, .ok set'⟩ ∧
      parse ⟨set, ⟨none, entries⟩⟩ ⟨file, format, text⟩ = .ok ⟨set', ⟨none, entries ++ log⟩⟩ ∧
      log.map (fun d => (d.code, d.message)) = (Utf16.unpaired 0 (Escape.units escapes)).map (fun unit =>
        (.invalidEscapeSequence, Code.format .invalidEscapeSequence [String.ofList ('\\' :: 'u' :: hexText unit)])) ∧
      set'.modules = set.modules ++ [set.tree.size] ∧ set'.tree.contentChildren set.tree.size = [doc] ∧
      Builder.isImplicitDocument (set'.tree.kind doc) = true ∧ set'.tree.contentChildren doc = [x] ∧
      set'.tree.contentChildren x = [] ∧
      (set'.tree.get x).Quotes name (Utf16.decode (Escape.units escapes)) := by
  intro text
  have htail : (if ended then ['\n'] else []) = [] ∨ (if ended then ['\n'] else []) = ['\n'] := by cases ended <;> simp
  have hhead : '"' ∉ (Escape.writeAll escapes).head? := by cases escapes <;> simp [Escape.writeAll]
  have hbefore : Utf16.startsPair (0 :: Escape.units escapes) = false := Utf16.startsPair_cons rfl
  obtain ⟨tree, doc, x, notes, hnotes, hparse, hroot, himplicit, hdoc, hleaf, hquotes⟩ :=
    set.exists_parse_quotedPair file format name
      ⟨hhead, fun stop start p _ => exists_readPieces_of_units stop start _ p _ hbefore⟩ htail
  refine ⟨_, _, doc, x, hparse, ?_, ?_, rfl, hroot, himplicit, hdoc, hleaf, hquotes⟩
  · simp only [parse_eq_accept, accept, text, hparse, Collection.receiveAll_of_unlimited]
  · have hformat := congrArg (map fun told : Code × List String => (told.1, told.1.format told.2)) hnotes
    rw [map_map, map_map] at hformat
    rw [map_map]
    exact hformat

end Session

end PairMarkup
