import PairMarkup.Json.Basic
import PairMarkup.Text.Number
import PairMarkup.Text.Utf16

namespace PairMarkup.Json

open Text

def isBlank (c : Char) : Bool := c == ' ' || c == '\n' || c == '\t' || c == '\r'

def dropBlanks (text : List Char) : List Char := text.dropWhile isBlank

/-- The character that a backslash and one more character stand for. -/
def simpleEscape? : Char → Option Char
  | '"' => some '"'
  | '\\' => some '\\'
  | '/' => some '/'
  | 'b' => some '\x08'
  | 'f' => some '\x0c'
  | 'n' => some '\n'
  | 'r' => some '\r'
  | 't' => some '\t'
  | _ => none

def readUnit : List Char → Option (Nat × List Char)
  | a :: b :: c :: d :: rest => do
    let a ← hexDigit? a
    let b ← hexDigit? b
    let c ← hexDigit? c
    let d ← hexDigit? d
    return (((a * 16 + b) * 16 + c) * 16 + d, rest)
  | _ => none

def readLowSurrogate : List Char → Option (Nat × List Char)
  | '\\' :: 'u' :: rest => (readUnit rest).filter fun (unit, _) => Utf16.isLowSurrogate unit
  | _ => none

/-- Reads on after a backslash and a `u`. A surrogate without a partner is
    replaced if that is allowed. -/
def readCodePoint (lenient : Bool) (text : List Char) : Option (Char × List Char) :=
  match readUnit text with
  | none => none
  | some (unit, rest) =>
    if Utf16.isHighSurrogate unit then
      match readLowSurrogate rest with
      | some (low, rest) => some (Utf16.combine unit low, rest)
      | none => if lenient then some (Utf16.replacement, rest) else none
    else if Utf16.isLowSurrogate unit then
      if lenient then some (Utf16.replacement, rest) else none
    else some (Char.ofNat unit, rest)

def readEscape (lenient : Bool) : List Char → Option (Char × List Char)
  | [] => none
  | c :: rest =>
    match simpleEscape? c with
    | some meant => some (meant, rest)
    | none => if c = 'u' then readCodePoint lenient rest else none

theorem length_of_readUnit {text rest : List Char} {unit : Nat}
    (hread : readUnit text = some (unit, rest)) : rest.length < text.length := by
  unfold readUnit at hread
  split at hread
  · simp only [Option.bind_eq_bind, Option.bind_eq_some_iff, Option.pure_def, Option.some.injEq,
      Prod.mk.injEq] at hread
    obtain ⟨_, _, _, _, _, _, _, _, _, rfl⟩ := hread
    simp only [List.length_cons]
    omega
  · cases hread

theorem length_of_readLowSurrogate {text rest : List Char} {unit : Nat}
    (hread : readLowSurrogate text = some (unit, rest)) : rest.length < text.length := by
  unfold readLowSurrogate at hread
  split at hread
  · have hunit := length_of_readUnit (Option.eq_some_of_filter_eq_some hread)
    simp only [List.length_cons]
    omega
  · cases hread

theorem length_of_readCodePoint {lenient : Bool} {text rest : List Char} {c : Char}
    (hread : readCodePoint lenient text = some (c, rest)) : rest.length < text.length := by
  unfold readCodePoint at hread
  split at hread
  · cases hread
  · rename_i hunit
    have hlength := length_of_readUnit hunit
    split at hread
    · split at hread
      · rename_i hlow
        have := length_of_readLowSurrogate hlow
        simp only [Option.some.injEq, Prod.mk.injEq] at hread
        obtain ⟨_, rfl⟩ := hread
        omega
      · split at hread
        · simp only [Option.some.injEq, Prod.mk.injEq] at hread
          obtain ⟨_, rfl⟩ := hread
          exact hlength
        · cases hread
    · split at hread
      · split at hread
        · simp only [Option.some.injEq, Prod.mk.injEq] at hread
          obtain ⟨_, rfl⟩ := hread
          exact hlength
        · cases hread
      · simp only [Option.some.injEq, Prod.mk.injEq] at hread
        obtain ⟨_, rfl⟩ := hread
        exact hlength

theorem length_of_readEscape {lenient : Bool} {text rest : List Char} {c : Char}
    (hread : readEscape lenient text = some (c, rest)) : rest.length < text.length := by
  unfold readEscape at hread
  split at hread
  · cases hread
  · split at hread
    · cases hread
      simp
    · split at hread
      · have := length_of_readCodePoint hread
        simp only [List.length_cons]
        omega
      · cases hread

def readString (lenient : Bool) (text : List Char) : Option (List Char × List Char) :=
  match text with
  | [] => none
  | c :: rest =>
    if c = '"' then some ([], rest)
    else if c = '\\' then
      match hread : readEscape lenient rest with
      | none => none
      | some (meant, after) =>
        have := length_of_readEscape hread
        (readString lenient after).map fun (content, rest) => (meant :: content, rest)
    else if c.toNat < 0x20 then none
    else (readString lenient rest).map fun (content, rest) => (c :: content, rest)
termination_by text.length

/-- The characters that number literals are made of. -/
def isNumberChar (c : Char) : Bool := c.isDigit || c == '-' || c == '+' || c == '.' || c == 'e' || c == 'E'

def readScalar (text : List Char) : Option (Json × List Char) :=
  match text with
  | 'n' :: 'u' :: 'l' :: 'l' :: rest => some (null, rest)
  | 't' :: 'r' :: 'u' :: 'e' :: rest => some (bool true, rest)
  | 'f' :: 'a' :: 'l' :: 's' :: 'e' :: rest => some (bool false, rest)
  | text =>
    let literal := text.takeWhile isNumberChar
    if isNumberLiteral literal then
      some (number (String.ofList literal), text.dropWhile isNumberChar)
    else none

mutual

/-- Reads a value in at most so many steps. -/
def readValue (lenient : Bool) : (steps : Nat) → List Char → Option (Json × List Char)
  | 0, _ => none
  | n + 1, text =>
    match dropBlanks text with
    | '"' :: rest =>
      (readString lenient rest).map fun (content, rest) => (string (String.ofList content), rest)
    | '[' :: rest =>
      match dropBlanks rest with
      | ']' :: rest => some (array [], rest)
      | rest => (readItems lenient n rest).map fun (items, rest) => (array items, rest)
    | '\x7b' :: rest =>
      match dropBlanks rest with
      | '\x7d' :: rest => some (object [], rest)
      | rest =>
        (readFields lenient (fun _ => lenient) n rest).map fun (fields, rest) =>
          (object fields, rest)
    | text => readScalar text

/-- Reads at least one item and the bracket behind the last one. -/
def readItems (lenient : Bool) : (steps : Nat) → List Char → Option (List Json × List Char)
  | 0, _ => none
  | n + 1, text =>
    match readValue lenient n text with
    | none => none
    | some (item, rest) =>
      match dropBlanks rest with
      | ']' :: rest => some ([item], rest)
      | ',' :: rest => (readItems lenient n rest).map fun (items, rest) => (item :: items, rest)
      | _ => none

/-- Reads at least one field and the brace behind the last one. Which values may
    have surrogates without a partner is decided field by field. -/
def readFields (lenient : Bool) (lenientValue : String → Bool) :
    (steps : Nat) → List Char → Option (List (String × Json) × List Char)
  | 0, _ => none
  | n + 1, text =>
    match dropBlanks text with
    | '"' :: rest =>
      match readString lenient rest with
      | none => none
      | some (content, rest) =>
        match dropBlanks rest with
        | ':' :: rest =>
          let key := String.ofList content
          match readValue (lenientValue key) n rest with
          | none => none
          | some (value, rest) =>
            match dropBlanks rest with
            | '\x7d' :: rest => some ([(key, value)], rest)
            | ',' :: rest =>
              (readFields lenient lenientValue n rest).map fun (fields, rest) =>
                ((key, value) :: fields, rest)
            | _ => none
        | _ => none
    | _ => none

end

/-- Nothing but blanks may come after a value. -/
def complete? {α : Type} : Option (α × List Char) → Option α
  | some (value, rest) => if (dropBlanks rest).isEmpty then some value else none
  | none => none

/-- Every value takes one step, and every item or field one more. -/
def stepsFor (text : List Char) : Nat := 2 * text.length + 2

/-- Reads a text that holds one value. Surrogates without a partner are refused. -/
def read? (text : List Char) : Option Json := complete? (readValue false (stepsFor text) text)

/-- Reads a text that holds one object. Surrogates without a partner are refused,
    except in the values of the fields for which `lenientValue` allows them. -/
def readObject? (lenientValue : String → Bool) (text : List Char) : Option (List (String × Json)) :=
  match dropBlanks text with
  | '\x7b' :: rest =>
    match dropBlanks rest with
    | '\x7d' :: rest => complete? (some ([], rest))
    | rest => complete? (readFields false lenientValue (stepsFor text) rest)
  | _ => none

end PairMarkup.Json
