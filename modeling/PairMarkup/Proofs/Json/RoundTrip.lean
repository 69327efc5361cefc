import PairMarkup.Json.Reader
import PairMarkup.Proofs.Json.Literals

namespace PairMarkup

open List Option

namespace Text

variable {text : List Char}

theorem isNumberChar_of_isNumberLiteral (h : isNumberLiteral text) : text ≠ [] ∧ ∀ c ∈ text, Json.isNumberChar c := by
  have hall : ∀ {digits}, Literal.Digits digits → ∀ c ∈ digits, Json.isNumberChar c := by
    intro digits hdigits c hc
    simp [Json.isNumberChar, hdigits.2 c hc]
  have hsigns : ∀ sign ∈ [[], ['+'], ['-']], ∀ c ∈ sign, Json.isNumberChar c := by
    simp [Json.isNumberChar]
  obtain ⟨hsign, hwhole, hfraction, hexponent⟩ := Literal.isNumberLiteral_iff.mp h
  simp only [forall_mem_append]
  have hminus : ∀ sign ∈ [[], ['-']], sign ∈ [[], ['+'], ['-']] := by decide
  refine ⟨?_, hsigns _ (hminus _ hsign), ?_, ?_, ?_⟩
  · rcases hwhole <;> simp
  · rcases hwhole with _ | ⟨-, hdigits⟩
    · exact forall_mem_singleton.mpr rfl
    · exact hall hdigits
  · rcases hfraction with _ | hdigits
    · exact forall_mem_nil _
    · exact forall_mem_cons.mpr ⟨rfl, hall hdigits⟩
  · rcases hexponent with _ | ⟨rfl | rfl, hsign, hdigits⟩
    · exact forall_mem_nil _
    · exact forall_mem_cons.mpr ⟨rfl, forall_mem_append.mpr ⟨hsigns _ hsign, hall hdigits⟩⟩
    · exact forall_mem_cons.mpr ⟨rfl, forall_mem_append.mpr ⟨hsigns _ hsign, hall hdigits⟩⟩

end Text

namespace Json

open Text

variable (n level : Nat) (text : List Char) {c : Char} {lenient : Bool} {rest : List Char} {literal : List Char}
  {json : Json}

theorem hexDigit?_digitChar : ∀ d < 16, hexDigit? (Nat.digitChar d) = some d := by
  decide

/-- The escape of a control character is read as that character. -/
theorem readEscape_control (h : c.toNat < 0x20) :
    readEscape lenient ('u' :: '0' :: '0' :: Nat.digitChar (c.toNat / 16) :: Nat.digitChar (c.toNat % 16) :: rest) =
      some (c, rest) := by
  have hunit : readUnit ('0' :: '0' :: Nat.digitChar (c.toNat / 16) :: Nat.digitChar (c.toNat % 16) :: rest) =
      some (c.toNat, rest) := by
    have hzero : hexDigit? '0' = some 0 := by decide
    have hhigh := hexDigit?_digitChar (c.toNat / 16) (by omega)
    have hlow := hexDigit?_digitChar (c.toNat % 16) (by omega)
    have hsum : ((0 * 16 + 0) * 16 + c.toNat / 16) * 16 + c.toNat % 16 = c.toNat := by omega
    simp only [readUnit, hzero, hhigh, hlow, bind, bind_some, pure, hsum]
  have hhigh : Utf16.isHighSurrogate c.toNat = false := by
    simp only [Utf16.isHighSurrogate, Bool.and_eq_false_iff, decide_eq_false_iff_not]
    omega
  have hlow : Utf16.isLowSurrogate c.toNat = false := by
    simp only [Utf16.isLowSurrogate, Bool.and_eq_false_iff, decide_eq_false_iff_not]
    omega
  have hletter : simpleEscape? 'u' = none := rfl
  simp only [readEscape, hletter, if_true, readCodePoint, hunit, hhigh, hlow, Bool.false_eq_true, if_false,
    Char.ofNat_toNat]

theorem readString_backslash {meant : Char} {after : List Char}
    (h : readEscape lenient (c :: rest) = some (meant, after)) :
    readString lenient ('\\' :: c :: rest) = (readString lenient after).map fun p => (meant :: p.1, p.2) := by
  rw [readString]
  simp only [Char.reduceEq, if_false, if_true]
  split
  · rename_i hnone
    rw [h] at hnone
    cases hnone
  · rename_i hsome
    rw [h] at hsome
    cases hsome
    rfl

section

variable (c rest)

theorem readString_escape :
    readString lenient (escape c ++ rest) = (readString lenient rest).map fun p => (c :: p.1, p.2) := by
  unfold escape
  split
  case h_8 hquote hbackslash _ _ _ _ _ =>
    split
    · rename_i hcontrol
      exact readString_backslash (readEscape_control hcontrol)
    · rename_i hplain
      rw [singleton_append, readString, if_neg hquote, if_neg hbackslash, if_neg hplain]
  all_goals exact readString_backslash rfl

theorem readString_quote : readString lenient (text.flatMap escape ++ '"' :: rest) = some (text, rest) := by
  induction text with
  | nil =>
    rw [flatMap_nil, nil_append, readString]
    simp
  | cons c text ih =>
    rw [flatMap_cons, append_assoc, readString_escape, ih]
    rfl

end

mutual

/-- All numbers in the value are number literals. -/
def Lawful : Json → Prop
  | number literal => isNumberLiteral literal.toList = true
  | array items => LawfulItems items
  | object fields => LawfulFields fields
  | _ => True

def LawfulItems : List Json → Prop
  | [] => True
  | item :: items => item.Lawful ∧ LawfulItems items

def LawfulFields : List (String × Json) → Prop
  | [] => True
  | (_, value) :: fields => value.Lawful ∧ LawfulFields fields

end

mutual

def steps : Json → Nat
  | array items => 1 + stepsOfItems items
  | object fields => 1 + stepsOfFields fields
  | _ => 1

def stepsOfItems : List Json → Nat
  | [] => 0
  | item :: items => 1 + item.steps + stepsOfItems items

def stepsOfFields : List (String × Json) → Nat
  | [] => 0
  | (_, value) :: fields => 1 + value.steps + stepsOfFields fields

end

/-- What comes behind a value does not go on with a number. -/
def EndsNumber (rest : List Char) : Prop := ∀ c ∈ rest.head?, isNumberChar c = false

theorem length_newLine : (newLine level text).length = text.length + 2 * level + 1 := by
  simp only [newLine, cons_append, length_cons, length_append, length_replicate]
  omega

theorem length_quote (text : String) (rest : List Char) : rest.length + 2 ≤ (quote text rest).length := by
  simp only [quote, cons_append, length_cons, length_append]
  omega

theorem steps_pos (json : Json) : 0 < json.steps := by
  cases json <;> simp only [steps] <;> omega

mutual

/-- A text is long enough for the steps in which it is read. -/
theorem steps_le_length (json : Json) (level : Nat) (rest : List Char) :
    json.steps + 2 * rest.length ≤ 2 * (print level rest json).length + 1 := by
  match json with
  | null | bool true | bool false =>
    simp only [steps, print, length_cons]
    omega
  | number literal =>
    simp only [steps, print, length_append]
    omega
  | string text =>
    have hquote := length_quote text rest
    simp only [steps, print]
    omega
  | array [] | object [] =>
    simp only [steps, stepsOfItems, stepsOfFields, print, length_cons]
    omega
  | array (item :: items) =>
    have hitem := steps_le_length item (level + 1) (printItems (level + 1) (newLine level (']' :: rest)) items)
    have hitems := stepsOfItems_le_length items (level + 1) (newLine level (']' :: rest))
    simp only [steps, stepsOfItems, print, length_newLine, length_cons] at hitem hitems ⊢
    omega
  | object ((key, value) :: fields) =>
    have hvalue := steps_le_length value (level + 1) (printFields (level + 1) (newLine level ('\x7d' :: rest)) fields)
    have hfields := stepsOfFields_le_length fields (level + 1) (newLine level ('\x7d' :: rest))
    have hquote := length_quote key (':' :: ' ' ::
      print (level + 1) (printFields (level + 1) (newLine level ('\x7d' :: rest)) fields) value)
    simp only [steps, stepsOfFields, print, length_newLine, length_cons] at hvalue hfields hquote ⊢
    omega

theorem stepsOfItems_le_length (items : List Json) (level : Nat) (rest : List Char) :
    stepsOfItems items + 2 * rest.length ≤ 2 * (printItems level rest items).length := by
  match items with
  | [] => simp only [stepsOfItems, printItems, Nat.zero_add, le_refl]
  | item :: items =>
    have hitem := steps_le_length item level (printItems level rest items)
    have hitems := stepsOfItems_le_length items level rest
    simp only [stepsOfItems, printItems, length_newLine, length_cons]
    omega

theorem stepsOfFields_le_length (fields : List (String × Json)) (level : Nat) (rest : List Char) :
    stepsOfFields fields + 2 * rest.length ≤ 2 * (printFields level rest fields).length := by
  match fields with
  | [] => simp only [stepsOfFields, printFields, Nat.zero_add, le_refl]
  | (key, value) :: fields =>
    have hvalue := steps_le_length value level (printFields level rest fields)
    have hfields := stepsOfFields_le_length fields level rest
    have hquote := length_quote key (':' :: ' ' :: print level (printFields level rest fields) value)
    simp only [stepsOfFields, printFields, length_newLine, length_cons] at hquote ⊢
    omega

end

theorem dropBlanks_cons (h : isBlank c = false) (rest : List Char) : dropBlanks (c :: rest) = c :: rest := by
  rw [dropBlanks, dropWhile_cons, h]
  rfl

theorem dropBlanks_newLine : dropBlanks (newLine level text) = dropBlanks text := by
  rw [newLine, cons_append, dropBlanks, dropWhile_cons_of_pos rfl]
  exact dropWhile_append_of_pos fun c hc => by rw [eq_of_mem_replicate hc]; rfl

theorem isBlank_of_isNumberChar (h : isNumberChar c) : isBlank c = false := by
  by_contra hblank
  simp only [isBlank, Bool.not_eq_false, Bool.or_eq_true, beq_iff_eq] at hblank
  rcases hblank with ((rfl | rfl) | rfl) | rfl <;> exact absurd h (by decide)

theorem print_eq_cons (h : json.Lawful) (level : Nat) (rest : List Char) :
    ∃ c tail, print level rest json = c :: tail ∧ isBlank c = false ∧ c ≠ ']' := by
  match json with
  | null | bool true | bool false | string _ | array [] | array (_ :: _) | object [] | object (_ :: _) =>
    exact ⟨_, _, rfl, by decide, by decide⟩
  | number literal =>
    rw [Lawful] at h
    obtain ⟨hne, hall⟩ := isNumberChar_of_isNumberLiteral h
    obtain ⟨c, tail, htext⟩ := exists_cons_of_ne_nil hne
    have hc : isNumberChar c = true := hall c (htext ▸ mem_cons_self)
    refine ⟨c, tail ++ rest, by rw [print, htext, cons_append], isBlank_of_isNumberChar hc, ?_⟩
    rintro rfl
    exact absurd hc (by decide)

theorem readScalar_number (h : isNumberLiteral literal) (hrest : EndsNumber rest) :
    readScalar (literal ++ rest) = some (number (String.ofList literal), rest) := by
  obtain ⟨hne, hall⟩ := isNumberChar_of_isNumberLiteral h
  have hend : rest.takeWhile isNumberChar = [] ∧ rest.dropWhile isNumberChar = rest := by
    cases rest with
    | nil => exact ⟨rfl, rfl⟩
    | cons c rest =>
      have hc := hrest c rfl
      rw [takeWhile_cons, dropWhile_cons, hc]
      exact ⟨rfl, rfl⟩
  have htake : (literal ++ rest).takeWhile isNumberChar = literal := by
    rw [takeWhile_append_of_pos hall, hend.1, append_nil]
  have hdrop : (literal ++ rest).dropWhile isNumberChar = rest := by
    rw [dropWhile_append_of_pos hall, hend.2]
  obtain ⟨c, tail, rfl⟩ := exists_cons_of_ne_nil hne
  have hc : isNumberChar c := hall c mem_cons_self
  unfold readScalar
  split
  case h_4 => rw [htake, hdrop, if_pos h]
  all_goals
    rename_i heq
    obtain ⟨rfl, -⟩ := List.cons.inj heq
    exact absurd hc (by decide)

theorem readValue_congr {text text' : List Char} (h : dropBlanks text = dropBlanks text') :
    readValue lenient n text = readValue lenient n text' := by
  cases n with
  | zero => simp only [readValue]
  | succ n => simp only [readValue, h]

theorem readItems_newLine : readItems lenient n (newLine level text) = readItems lenient n text := by
  cases n with
  | zero => simp only [readItems]
  | succ n => simp only [readItems, readValue_congr n (dropBlanks_newLine level text)]

theorem readFields_newLine :
    readFields lenient (fun _ => lenient) n (newLine level text) = readFields lenient (fun _ => lenient) n text := by
  cases n with
  | zero => simp only [readFields]
  | succ n => simp only [readFields, dropBlanks_newLine]

theorem ends_newLine : EndsNumber (newLine level text) := by
  rintro c hc
  cases hc
  rfl

theorem ends_printItems (outer : Nat) (text : List Char) (items : List Json) :
    EndsNumber (printItems level (newLine outer text) items) := by
  cases items with
  | nil =>
    rw [printItems]
    exact ends_newLine outer text
  | cons item items =>
    rintro c hc
    rw [printItems] at hc
    cases hc
    rfl

theorem ends_printFields (outer : Nat) (text : List Char) (fields : List (String × Json)) :
    EndsNumber (printFields level (newLine outer text) fields) := by
  cases fields with
  | nil =>
    rw [printFields]
    exact ends_newLine outer text
  | cons field fields =>
    rintro c hc
    rw [printFields] at hc
    cases hc
    rfl

theorem readValue_string : readValue lenient (n + 1) ('"' :: text) =
    (readString lenient text).map fun p => (string (String.ofList p.1), p.2) := rfl

theorem readValue_array {text tail : List Char} (htext : dropBlanks text = c :: tail) (hc : c ≠ ']') (n : Nat) :
    readValue lenient (n + 1) ('[' :: text) = (readItems lenient n (c :: tail)).map fun p => (array p.1, p.2) := by
  rw [readValue, dropBlanks_cons rfl]
  split
  case h_2 heq =>
    obtain ⟨-, rfl⟩ := List.cons.inj heq
    rw [htext]
    split
    · rename_i heq
      exact absurd (List.cons.inj heq).1 hc
    · rfl
  case h_4 hother _ => exact absurd rfl (hother text)
  all_goals
    rename_i heq
    exact absurd (List.cons.inj heq).1 (by decide)

theorem readValue_object {text tail : List Char} (htext : dropBlanks text = c :: tail) (hc : c ≠ '\x7d')
    (n : Nat) : readValue lenient (n + 1) ('\x7b' :: text) =
      (readFields lenient (fun _ => lenient) n (c :: tail)).map fun p => (object p.1, p.2) := by
  rw [readValue, dropBlanks_cons rfl]
  split
  case h_3 heq =>
    obtain ⟨-, rfl⟩ := List.cons.inj heq
    rw [htext]
    split
    · rename_i heq
      exact absurd (List.cons.inj heq).1 hc
    · rfl
  case h_4 hother => exact absurd rfl (hother text)
  all_goals
    rename_i heq
    exact absurd (List.cons.inj heq).1 (by decide)

theorem readValue_number (h : isNumberLiteral literal) (hrest : EndsNumber rest) (n : Nat) :
    readValue lenient (n + 1) (literal ++ rest) = some (number (String.ofList literal), rest) := by
  rw [← readScalar_number h hrest]
  obtain ⟨hne, hall⟩ := isNumberChar_of_isNumberLiteral h
  obtain ⟨c, tail, rfl⟩ := exists_cons_of_ne_nil hne
  have hc : isNumberChar c := hall c mem_cons_self
  rw [cons_append, readValue, dropBlanks_cons (isBlank_of_isNumberChar hc)]
  split
  case h_4 => rfl
  all_goals
    rename_i heq
    obtain ⟨rfl, -⟩ := List.cons.inj heq
    exact absurd hc (by decide)

/-- Whether a field is the last one is read off the mark behind its value. -/
theorem readFields_field {n : Nat} {text behind : List Char} {value : Json} (key : String)
    (hvalue : readValue lenient n text = some (value, behind)) :
    (∀ rest, dropBlanks behind = '\x7d' :: rest →
      readFields lenient (fun _ => lenient) (n + 1) (quote key (':' :: ' ' :: text)) = some ([(key, value)], rest)) ∧
    ∀ rest, dropBlanks behind = ',' :: rest →
      readFields lenient (fun _ => lenient) (n + 1) (quote key (':' :: ' ' :: text)) =
        (readFields lenient (fun _ => lenient) n rest).map fun p => ((key, value) :: p.1, p.2) := by
  have hblank : readValue lenient n (' ' :: text) = some (value, behind) := hvalue ▸ readValue_congr n rfl
  generalize hresult : readFields lenient (fun _ => lenient) (n + 1) (quote key (':' :: ' ' :: text)) = result
  obtain ⟨content, rfl⟩ : ∃ content, key = String.ofList content := ⟨key.toList, String.ofList_toList.symm⟩
  rw [readFields, quote, cons_append, dropBlanks_cons rfl, String.toList_ofList] at hresult
  split at hresult
  case h_2 hother => exact absurd rfl (hother _)
  rename_i heq
  obtain ⟨-, rfl⟩ := List.cons.inj heq
  rw [readString_quote] at hresult
  dsimp only at hresult
  rw [dropBlanks_cons rfl] at hresult
  split at hresult
  case h_2 hother => exact absurd rfl (hother _)
  rename_i heq
  obtain ⟨-, rfl⟩ := List.cons.inj heq
  rw [hblank] at hresult
  dsimp only at hresult
  constructor
  · intro rest hrest
    rw [hrest] at hresult
    exact hresult.symm
  · intro rest hrest
    rw [hrest] at hresult
    exact hresult.symm

mutual

theorem readValue_print (json : Json) (h : json.Lawful) {n : Nat} (hn : json.steps ≤ n) (level : Nat)
    {rest : List Char} (hrest : EndsNumber rest) : readValue lenient n (print level rest json) = some (json, rest) := by
  obtain ⟨n, rfl⟩ : ∃ k, n = k + 1 := ⟨n - 1, by have := steps_pos json; omega⟩
  match json with
  | null | bool true | bool false | array [] | object [] => rfl
  | number literal =>
    rw [Lawful] at h
    rw [print, readValue_number h hrest, String.ofList_toList]
  | string text =>
    rw [print, quote, cons_append, readValue_string, readString_quote, map_some, String.ofList_toList]
  | array (item :: items) =>
    rw [Lawful] at h
    rw [steps] at hn
    have hitem : item.Lawful := by
      rw [LawfulItems] at h
      exact h.1
    have hitems := readItems_print item items h (show stepsOfItems (item :: items) ≤ n by omega) (level + 1) level rest
    rw [print]
    obtain ⟨c, tail, hprint, hblank, hbracket⟩ :=
      print_eq_cons hitem (level + 1) (printItems (level + 1) (newLine level (']' :: rest)) items)
    rw [hprint] at hitems ⊢
    rw [readValue_array ((dropBlanks_newLine ..).trans (dropBlanks_cons hblank tail)) hbracket, hitems, map_some]
  | object ((key, value) :: fields) =>
    rw [Lawful] at h
    rw [steps] at hn
    have hfields := readFields_print key value fields h (show stepsOfFields ((key, value) :: fields) ≤ n by omega)
      (level + 1) level rest
    rw [quote, cons_append] at hfields
    rw [print, quote, cons_append, readValue_object
        ((dropBlanks_newLine ..).trans (dropBlanks_cons (show isBlank '"' = false by decide) _)) (by decide),
      hfields, map_some]
termination_by n

theorem readItems_print (item : Json) (items : List Json) (h : LawfulItems (item :: items)) {n : Nat}
    (hn : stepsOfItems (item :: items) ≤ n) (level outer : Nat) (rest : List Char) :
    readItems lenient n (print level (printItems level (newLine outer (']' :: rest)) items) item) =
      some (item :: items, rest) := by
  rw [stepsOfItems] at hn
  rw [LawfulItems] at h
  obtain ⟨n, rfl⟩ : ∃ k, n = k + 1 := ⟨n - 1, by omega⟩
  have hitem := readValue_print item h.1 (show item.steps ≤ n by omega) level
    (ends_printItems level outer (']' :: rest) items)
  rw [readItems, hitem]
  dsimp only
  match items with
  | [] =>
    rw [printItems, dropBlanks_newLine, dropBlanks_cons rfl]
    rfl
  | next :: items =>
    have hnext := readItems_print next items h.2 (show stepsOfItems (next :: items) ≤ n by omega) level outer rest
    rw [printItems, dropBlanks_cons rfl]
    change (readItems lenient n (newLine level _)).map _ = _
    rw [readItems_newLine, hnext, map_some]
termination_by n

theorem readFields_print (key : String) (value : Json) (fields : List (String × Json))
    (h : LawfulFields ((key, value) :: fields)) {n : Nat} (hn : stepsOfFields ((key, value) :: fields) ≤ n)
    (level outer : Nat) (rest : List Char) :
    readFields lenient (fun _ => lenient) n (quote key (':' :: ' ' ::
      print level (printFields level (newLine outer ('\x7d' :: rest)) fields) value)) =
        some ((key, value) :: fields, rest) := by
  rw [stepsOfFields] at hn
  rw [LawfulFields] at h
  obtain ⟨n, rfl⟩ : ∃ k, n = k + 1 := ⟨n - 1, by omega⟩
  have hvalue := readValue_print value h.1 (show value.steps ≤ n by omega) level
    (ends_printFields level outer ('\x7d' :: rest) fields)
  obtain ⟨hlast, hmore⟩ := readFields_field key hvalue
  match fields with
  | [] =>
    refine hlast rest ?_
    rw [printFields, dropBlanks_newLine, dropBlanks_cons rfl]
  | (next, value') :: fields =>
    have hnext := readFields_print next value' fields h.2
      (show stepsOfFields ((next, value') :: fields) ≤ n by omega) level outer rest
    rw [printFields] at hmore ⊢
    rw [hmore _ (dropBlanks_cons rfl _), readFields_newLine, hnext, map_some]
termination_by n

end

theorem read?_text (h : json.Lawful) : read? json.text.toList = some json := by
  have hsteps := steps_le_length json 0 []
  have hread : readValue false (stepsFor (print 0 [] json)) (print 0 [] json) = some (json, []) :=
    readValue_print json h (by simp only [stepsFor, length_nil] at hsteps ⊢; omega) 0 (by rintro c hc; cases hc)
  rw [text, String.toList_ofList, read?, hread]
  rfl

end Json

end PairMarkup
