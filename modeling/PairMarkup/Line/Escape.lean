import PairMarkup.Line.Basic
import PairMarkup.Text.Hex
import PairMarkup.Text.Utf16

namespace PairMarkup.Line

open Glyph Text

/-- The character that a backslash and one more character stand for. -/
def simpleEscape? : Char → Option Char
  | '\\' => some '\\'
  | '"' => some '"'
  | '\'' => some '\''
  | '/' => some '/'
  | 'b' => some '\x08'
  | 'f' => some '\x0c'
  | 'n' => some '\n'
  | 'r' => some '\r'
  | 't' => some '\t'
  | '$' => some '$'
  | '%' => some '%'
  | _ => none

/-- The code unit that the next four characters spell in hexadecimal. -/
def hexUnit? : List Char → Option Nat
  | a :: b :: c :: d :: _ => do
    let a ← hexDigit? a
    let b ← hexDigit? b
    let c ← hexDigit? c
    let d ← hexDigit? d
    return ((a * 16 + b) * 16 + c) * 16 + d
  | _ => none

def codeUnit? (gs : List Glyph) : Option Nat := hexUnit? (raw 4 gs)

/-- The low surrogate that is escaped right here, if one is. -/
def lowSurrogate? : List Char → Option Nat
  | a :: b :: digits => if a = '\\' && b = 'u' then (hexUnit? digits).filter Utf16.isLowSurrogate else none
  | _ => none

def escapedLowSurrogate? (gs : List Glyph) : Option Nat := lowSurrogate? (raw 6 gs)

def upperHexDigit (n : Nat) : Char := Char.ofNat (if n < 10 then 48 + n else 55 + n)

def hexText (n : Nat) : List Char :=
  [upperHexDigit (n / 4096 % 16), upperHexDigit (n / 256 % 16), upperHexDigit (n / 16 % 16), upperHexDigit (n % 16)]

def invalidEscape (written : List Char) (span : Span) : Note :=
  .mk .invalidEscapeSequence [String.ofList written] span

/-- Reads on after a backslash and a `u`. The backslash is at `start`. -/
def readUnicodeEscape (stop start : Position) (gs : List Glyph) : Read (List Char) :=
  match codeUnit? gs with
  | none => ⟨['\\', 'u'], [invalidEscape ['\\', 'u'] ⟨start, here stop gs⟩], gs⟩
  | some unit =>
    let rest := gs.drop 4
    if Utf16.isHighSurrogate unit then
      match escapedLowSurrogate? rest with
      | some low => ⟨[Utf16.combine unit low], [], rest.drop 6⟩
      | none => unpaired unit rest
    else if Utf16.isLowSurrogate unit then unpaired unit rest
    else ⟨[Char.ofNat unit], [], rest⟩
where
  unpaired (unit : Nat) (rest : List Glyph) : Read (List Char) :=
    ⟨[Utf16.replacement], [invalidEscape ('\\' :: 'u' :: hexText unit) ⟨start, here stop rest⟩], rest⟩

/-- Reads on after a backslash, which is at `start`. What is no escape sequence
    stands for itself. -/
def readEscape (stop start : Position) (gs : List Glyph) : Read (List Char) :=
  match gs with
  | [] => ⟨['\\'], [invalidEscape ['\\'] ⟨start, stop⟩], []⟩
  | g :: rest =>
    match simpleEscape? g.char with
    | some c => ⟨[c], [], rest⟩
    | none =>
      if g.char = 'u' then readUnicodeEscape stop start rest
      else if g.isLineBreak then ⟨['\\'], [invalidEscape ['\\'] ⟨start, g.position⟩], g :: rest⟩
      else ⟨['\\', g.char], [invalidEscape ['\\', g.char] ⟨start, here stop rest⟩], rest⟩

theorem readUnicodeEscape_suffix (stop start : Position) (gs : List Glyph) :
    (readUnicodeEscape stop start gs).rest <:+ gs := by
  unfold readUnicodeEscape
  split
  · exact List.suffix_refl _
  · dsimp only
    split
    · split
      · exact (List.drop_suffix _ _).trans (List.drop_suffix _ _)
      · exact List.drop_suffix _ _
    · split <;> exact List.drop_suffix _ _

theorem readEscape_suffix (stop start : Position) (gs : List Glyph) : (readEscape stop start gs).rest <:+ gs := by
  unfold readEscape
  split
  · exact List.suffix_refl _
  · next g rest =>
    split
    · exact List.suffix_cons g rest
    · split
      · exact (readUnicodeEscape_suffix stop start rest).trans (List.suffix_cons g rest)
      · split
        · exact List.suffix_refl _
        · exact List.suffix_cons g rest

end PairMarkup.Line
