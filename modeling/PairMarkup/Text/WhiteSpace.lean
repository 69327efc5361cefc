namespace PairMarkup.Text

/-- The characters with the Unicode property White_Space. -/
def isWhitespace (c : Char) : Bool :=
  let n := c.toNat
  (0x9 ≤ n && n ≤ 0xD) || n == 0x20 || n == 0x85 || n == 0xA0 || n == 0x1680 ||
    (0x2000 ≤ n && n ≤ 0x200A) || n == 0x2028 || n == 0x2029 || n == 0x202F || n == 0x205F ||
    n == 0x3000

def trimEnd (text : List Char) : List Char := (text.reverse.dropWhile isWhitespace).reverse

def trim (text : List Char) : List Char := trimEnd (text.dropWhile isWhitespace)

/-- Space and tab, the two characters that lines are indented with. -/
def isBlank (c : Char) : Bool := c == ' ' || c == '\t'

def isLineBreak (c : Char) : Bool := c == '\n' || c == '\r'

def upToBreak (text : List Char) : List Char := text.takeWhile fun c => !isLineBreak c

@[simp] theorem upToBreak_nil : upToBreak [] = [] := rfl

theorem upToBreak_cons (c : Char) (text : List Char) :
    upToBreak (c :: text) = if isLineBreak c then [] else c :: upToBreak text := by
  cases hc : isLineBreak c <;> simp [upToBreak, hc]

end PairMarkup.Text
