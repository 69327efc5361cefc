import Mathlib.Data.List.TakeWhile
import PairMarkup.Dialect

namespace PairMarkup

open List

namespace Literal

/-- Words of `[0-9]+`. -/
def Digits (text : List Char) : Prop := text ≠ [] ∧ ∀ c ∈ text, c.isDigit = true

/-- Words of `0|[1-9][0-9]*`. -/
inductive Whole : List Char → Prop
  | zero : Whole ['0']
  | other {c : Char} {text : List Char} : c ≠ '0' → Digits (c :: text) → Whole (c :: text)

/-- Words of `(\.[0-9]+)?`. -/
inductive Fraction : List Char → Prop
  | none : Fraction []
  | some {text : List Char} : Digits text → Fraction ('.' :: text)

/-- Words of `([eE][+-]?[0-9]+)?`. -/
inductive Exponent : List Char → Prop
  | none : Exponent []
  | some {mark : Char} {sign text : List Char} : mark = 'e' ∨ mark = 'E' → sign ∈ [[], ['+'], ['-']] → Digits text →
      Exponent (mark :: (sign ++ text))

/-- Words of `-?(0|[1-9][0-9]*)(\.[0-9]+)?([eE][+-]?[0-9]+)?`. -/
inductive Number : List Char → Prop
  | parts {sign whole fraction exponent : List Char} : sign ∈ [[], ['-']] → Whole whole → Fraction fraction →
      Exponent exponent → Number (sign ++ (whole ++ (fraction ++ exponent)))

variable {text : List Char}

open Text.isNumberLiteral

theorem isExponent_iff :
    isExponent text ↔ ∃ sign digits, text = sign ++ digits ∧ sign ∈ [[], ['+'], ['-']] ∧ Digits digits := by
  simp only [isExponent, Bool.or_eq_true, decide_eq_true_eq, Bool.and_eq_true, Bool.not_eq_true', isEmpty_eq_false_iff,
    all_eq_true]
  constructor
  · intro h
    split at h
    · rename_i hsign
      rcases hsign with hsign | hsign <;> obtain ⟨digits, rfl⟩ := head?_eq_some_iff.mp hsign <;>
        exact ⟨[_], digits, rfl, by simp, h⟩
    · exact ⟨[], text, rfl, by simp, h⟩
  · rintro ⟨sign, digits, rfl, hsign, hdigits⟩
    simp only [mem_cons, not_mem_nil, or_false] at hsign
    rcases hsign with rfl | rfl | rfl
    · -- a digit is no sign
      rw [if_neg]
      · exact hdigits
      · rintro (h | h) <;> obtain ⟨rest, rfl⟩ := head?_eq_some_iff.mp h <;>
          exact absurd (hdigits.2 _ mem_cons_self) (by decide)
    · exact hdigits
    · exact hdigits

theorem afterFraction_iff : afterFraction text ↔ Exponent text := by
  have hmark : ∀ {mark rest}, mark = 'e' ∨ mark = 'E' → (isExponent rest ↔ Exponent (mark :: rest)) := by
    intro mark rest hmark
    rw [isExponent_iff]
    constructor
    · rintro ⟨sign, digits, rfl, hsign, hdigits⟩
      exact .some hmark hsign hdigits
    · rintro (_ | ⟨_, hsign, hdigits⟩)
      exact ⟨_, _, rfl, hsign, hdigits⟩
  unfold afterFraction
  split
  · exact iff_of_true rfl .none
  · exact hmark (.inl rfl)
  · exact hmark (.inr rfl)
  · rename_i hnil hlower hupper
    refine iff_of_false Bool.false_ne_true ?_
    rintro (_ | ⟨rfl | rfl, -, -⟩)
    · exact hnil rfl
    · exact hlower _ rfl
    · exact hupper _ rfl

/-- Digits are passed over as far as they go, if none may follow them. -/
theorem digits_iff {P : List Char → Prop} (hP : ∀ {rest}, P rest → ∀ c ∈ rest.head?, c.isDigit = false) :
    startsWithDigit text ∧ P (text.dropWhile Char.isDigit) ↔
      ∃ digits rest, text = digits ++ rest ∧ Digits digits ∧ P rest := by
  constructor
  · rintro ⟨hstarts, h⟩
    refine ⟨text.takeWhile Char.isDigit, _, takeWhile_append_dropWhile.symm, ⟨?_, fun c => mem_takeWhile_imp⟩, h⟩
    cases text with
    | nil => cases hstarts
    | cons c text => exact takeWhile_cons_of_pos (p := Char.isDigit) hstarts ▸ cons_ne_nil _ _
  · rintro ⟨digits, rest, rfl, ⟨hne, hdigits⟩, h⟩
    rw [dropWhile_append_of_pos hdigits]
    obtain ⟨c, digits, rfl⟩ := exists_cons_of_ne_nil hne
    refine ⟨hdigits c mem_cons_self, ?_⟩
    cases rest with
    | nil => exact h
    | cons d rest => rwa [dropWhile_cons_of_neg (by simp [hP h d rfl])]

theorem head_exponent (h : Exponent text) : ∀ c ∈ text.head?, c.isDigit = false := by
  rcases h with _ | ⟨rfl | rfl, -, -⟩ <;> simp

/-- What may follow the digits before the point. -/
def Tail (text : List Char) : Prop :=
  ∃ fraction exponent, text = fraction ++ exponent ∧ Fraction fraction ∧ Exponent exponent

theorem head_tail (h : Tail text) : ∀ c ∈ text.head?, c.isDigit = false := by
  obtain ⟨fraction, exponent, rfl, _ | _, hexponent⟩ := h
  · exact head_exponent hexponent
  · simp

theorem afterInteger_iff : afterInteger text ↔ Tail text := by
  unfold afterInteger
  split
  · rw [Bool.and_eq_true, afterFraction_iff, digits_iff head_exponent]
    constructor
    · rintro ⟨digits, exponent, rfl, hdigits, hexponent⟩
      exact ⟨'.' :: digits, exponent, rfl, .some hdigits, hexponent⟩
    · rintro ⟨fraction, exponent, heq, _ | hdigits, hexponent⟩
      · subst heq
        rcases hexponent with _ | ⟨h | h, -, -⟩ <;> cases h
      · exact ⟨_, exponent, (cons.inj heq).2, hdigits, hexponent⟩
  · rename_i hpoint
    rw [afterFraction_iff]
    constructor
    · exact fun h => ⟨[], text, rfl, .none, h⟩
    · rintro ⟨fraction, exponent, rfl, _ | hdigits, hexponent⟩
      · exact hexponent
      · exact absurd rfl (hpoint _)

theorem isNumberLiteral_iff_body {body : List Char}
    (hbody : (if text.head? = some '-' then text.tail else text) = body) :
    Text.isNumberLiteral text ↔ ∃ whole rest, body = whole ++ rest ∧ Whole whole ∧ Tail rest := by
  rw [Text.isNumberLiteral, hbody]
  split
  · rename_i rest
    rw [afterInteger_iff]
    constructor
    · exact fun h => ⟨['0'], rest, rfl, .zero, h⟩
    · rintro ⟨whole, rest, heq, _ | ⟨hne, -⟩, h⟩
      · exact (cons.inj heq).2 ▸ h
      · exact absurd (cons.inj heq).1.symm hne
  · rename_i c rest hzero
    rw [Bool.and_eq_true, afterInteger_iff]
    rw [and_congr_right fun hc => by rw [← dropWhile_cons_of_pos hc]]
    change startsWithDigit (c :: rest) = true ∧ _ ↔ _
    refine (digits_iff head_tail).trans (exists_congr fun whole => exists_congr fun tail => ?_)
    refine and_congr_right fun heq => and_congr_left fun _ => ⟨fun h => ?_, fun h => ?_⟩
    · obtain ⟨d, digits, rfl⟩ := exists_cons_of_ne_nil h.1
      exact .other (fun hd => hzero ((cons.inj heq).1.trans hd)) h
    · rcases h with _ | ⟨-, h⟩
      · exact absurd (cons.inj heq).1 hzero
      · exact h
  · refine iff_of_false Bool.false_ne_true ?_
    rintro ⟨whole, rest, heq, _ | _, -⟩ <;> cases heq

theorem isNumberLiteral_iff : Text.isNumberLiteral text ↔ Number text := by
  constructor
  · intro h
    obtain ⟨sign, body, hsign, heq, hbody⟩ : ∃ sign body, sign ∈ [[], ['-']] ∧ text = sign ++ body ∧
        (if text.head? = some '-' then text.tail else text) = body := by
      by_cases hminus : text.head? = some '-'
      · obtain ⟨body, rfl⟩ := head?_eq_some_iff.mp hminus
        exact ⟨['-'], body, by simp, rfl, rfl⟩
      · exact ⟨[], text, by simp, rfl, if_neg hminus⟩
    obtain ⟨whole, _, rfl, hwhole, fraction, exponent, rfl, hfraction, hexponent⟩ :=
      (isNumberLiteral_iff_body hbody).mp h
    exact heq ▸ .parts hsign hwhole hfraction hexponent
  · rintro ⟨hsign, hwhole, hfraction, hexponent⟩
    refine (isNumberLiteral_iff_body ?_).mpr ⟨_, _, rfl, hwhole, _, _, rfl, hfraction, hexponent⟩
    rcases mem_cons.mp hsign with rfl | hsign
    · rcases hwhole with _ | ⟨-, -, hdigits⟩
      · rfl
      · refine if_neg fun h => ?_
        obtain rfl := Option.some.inj h
        exact absurd (hdigits _ mem_cons_self) (by decide)
    · rw [mem_singleton.mp hsign]
      rfl

end Literal

/-- What a value without quotes is in JSON: a number just if it is a word of the grammar, and otherwise one of the
    three words with a meaning of their own, or a text. -/
theorem Format.openValueKind_json (text : String) :
    (Format.json.openValueKind text = .number ↔ Literal.Number text.toList) ∧
      (Format.json.openValueKind text = .null ↔ text = "null") ∧
      (Format.json.openValueKind text = .boolean ↔ text = "true" ∨ text = "false") ∧
      (Format.json.openValueKind text = .openString ↔
        ¬ Literal.Number text.toList ∧ text ≠ "null" ∧ text ≠ "true" ∧ text ≠ "false") := by
  -- none of the words begins like a number
  have hwords : ∀ word ∈ ["null", "true", "false"], Text.isNumberLiteral word.toList = false := by decide
  rw [← Literal.isNumberLiteral_iff]
  by_cases hword : text ∈ ["null", "true", "false"]
  · have hnumber := hwords text hword
    simp only [mem_cons, not_mem_nil, or_false] at hword
    rw [hnumber]
    rcases hword with rfl | rfl | rfl <;> simp [Format.openValueKind]
  · simp only [mem_cons, not_mem_nil, or_false, not_or] at hword
    cases hnumber : Text.isNumberLiteral text.toList <;> simp [Format.openValueKind, hnumber, hword]

end PairMarkup
