namespace PairMarkup.Text

/-- The number literals of JSON. -/
def isNumberLiteral (text : List Char) : Bool :=
  match if text.head? = some '-' then text.tail else text with
  | '0' :: rest => afterInteger rest
  | c :: rest => c.isDigit && afterInteger (rest.dropWhile Char.isDigit)
  | [] => false
where
  afterInteger : List Char → Bool
    | '.' :: rest => startsWithDigit rest && afterFraction (rest.dropWhile Char.isDigit)
    | rest => afterFraction rest
  afterFraction : List Char → Bool
    | [] => true
    | 'e' :: rest => isExponent rest
    | 'E' :: rest => isExponent rest
    | _ => false
  isExponent (text : List Char) : Bool :=
    let digits := if text.head? = some '+' || text.head? = some '-' then text.tail else text
    !digits.isEmpty && digits.all Char.isDigit
  startsWithDigit (text : List Char) : Bool := text.head?.any Char.isDigit

end PairMarkup.Text
