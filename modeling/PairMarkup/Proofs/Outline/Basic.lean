import PairMarkup.Builder

namespace PairMarkup

/-- A name of letters and digits. -/
structure Word where
  chars : List Char
  ne_nil : chars ≠ []
  isAlphanum : ∀ c ∈ chars, c.isAlphanum = true

/-- A text of letters, digits and spaces. -/
structure Phrase where
  chars : List Char
  isPlain : ∀ c ∈ chars, Text.isAlphanumeric c = true ∨ c = ' '

inductive Entry where
  | block (name : Word) (entries : List Entry)
  | leaf (name : Word) (value : Phrase)

/-- Blanks, and perhaps a comment behind them. -/
structure Filler where
  blanks : List Char
  comment : Option (List Char)
  isBlank : ∀ c ∈ blanks, Text.isBlank c = true
  inLine : ∀ text, comment = some text → ∀ c ∈ text, Text.isLineBreak c = false

inductive Row where
  | filler (filler : Filler)
  /-- An entry without a value is one with a block. -/
  | entry (depth : Nat) (name : Word) (value : Option Phrase)

def Row.isFiller : Row → Bool
  | filler _ => true
  | entry _ _ _ => false

mutual

/-- The rows of an entry and of all below it, in pre-order. -/
def Entry.rows (depth : Nat) : Entry → List Row
  | block name entries => .entry depth name none :: rowsAll (depth + 1) entries
  | leaf name value => [.entry depth name (some value)]

def Entry.rowsAll (depth : Nat) : List Entry → List Row
  | [] => []
  | entry :: entries => entry.rows depth ++ rowsAll depth entries

end

def Line.IndentUnit.blanks (unit : IndentUnit) (depth : Nat) : List Char :=
  .replicate (depth * unit.width) (if unit.isTab then '\t' else ' ')

/-- What follows the name of an entry. -/
def Phrase.written : Option Phrase → List Char
  | none => [':']
  | some value => ' ' :: '=' :: ' ' :: '"' :: (value.chars ++ ['"'])

def Row.text (unit : Line.IndentUnit) : Row → List Char
  | filler row => row.blanks ++ row.comment.elim [] (['\'', '\'', '\''] ++ ·)
  | entry depth name value => unit.blanks depth ++ (name.chars ++ Phrase.written value)

def Row.page (unit : Line.IndentUnit) (rows : List Row) : List Char := Line.joinWith '\n' (rows.map (text unit))

/-- The pair has this name and this value, or no value and a block. -/
structure Pair.Says (pair : Pair) (name : Word) (value : Option Phrase) : Prop where
  kind_eq : pair.kind = .element
  name_eq : pair.name = some (String.ofList name.chars)
  nsPrefix_eq : pair.nsPrefix = none
  value_eq : pair.value = value.map fun v => String.ofList v.chars
  valueKind_eq : pair.valueKind = if value.isSome then .doubleQuoted else .object
  delimiter_eq : pair.delimiter = if value.isSome then .equal else .colon
  items_eq : pair.items = none

mutual

/-- The pair and all below it, comments excepted, are those of the entry. -/
def Entry.Shown (t : PairTree) : Entry → PairId → Prop
  | block name entries, id => (t.get id).Says name none ∧ ShownAll t entries (t.contentChildren id)
  | leaf name value, id => (t.get id).Says name (some value) ∧ t.contentChildren id = []

def Entry.ShownAll (t : PairTree) : List Entry → List PairId → Prop
  | [], ids => ids = []
  | entry :: entries, ids => ∃ id rest, ids = id :: rest ∧ entry.Shown t id ∧ ShownAll t entries rest

end

/-- Each entry stands at most one deeper than the one before it, and the first at most at the
    given depth. -/
def Row.Steps : Nat → List Row → Prop
  | _, [] => True
  | depth, filler _ :: rows => Steps depth rows
  | depth, entry next _ _ :: rows => next ≤ depth ∧ Steps (next + 1) rows

theorem Row.steps_filter (rows : List Row) (depth : Nat) :
    Steps depth (rows.filter fun row => !row.isFiller) ↔ Steps depth rows := by
  induction rows generalizing depth with
  | nil => rfl
  | cons row rows ih =>
    cases row with
    | filler row => exact ih depth
    | entry next name value =>
      change next ≤ depth ∧ _ ↔ next ≤ depth ∧ _
      rw [ih]

mutual

/-- What may follow at any greater depth may follow an entry. -/
theorem Entry.steps_rows {depth : Nat} {rest : List Row} (hrest : ∀ n, depth ≤ n → Row.Steps n rest)
    {n : Nat} (hn : depth ≤ n) : (entry : Entry) → Row.Steps n (entry.rows depth ++ rest)
  | block name entries => by
    refine ⟨hn, steps_rowsAll (fun m hm => hrest m (by omega)) (Nat.le_refl _) entries⟩
  | leaf name value => ⟨hn, hrest _ (Nat.le_succ _)⟩

theorem Entry.steps_rowsAll {depth : Nat} {rest : List Row} (hrest : ∀ n, depth ≤ n → Row.Steps n rest)
    {n : Nat} (hn : depth ≤ n) : (entries : List Entry) → Row.Steps n (rowsAll depth entries ++ rest)
  | [] => hrest n hn
  | entry :: entries => by
    rw [rowsAll, List.append_assoc]
    exact steps_rows (fun m hm => steps_rowsAll hrest hm entries) hn entry

end

end PairMarkup
