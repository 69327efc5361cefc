namespace PairMarkup.Text.Utf16

/-- Takes the place of a surrogate without a partner. -/
def replacement : Char := '�'

def isHighSurrogate (u : Nat) : Bool := 0xD800 ≤ u && u ≤ 0xDBFF

def isLowSurrogate (u : Nat) : Bool := 0xDC00 ≤ u && u ≤ 0xDFFF

/-- The character beyond the first plane that a surrogate pair stands for. -/
def combine (high low : Nat) : Char := Char.ofNat (0x10000 + (high - 0xD800) * 0x400 + (low - 0xDC00))

/-- Reads code units as text. A high surrogate followed by a low one is one
    character, every other surrogate becomes `replacement`. -/
def decode : List Nat → List Char
  | [] => []
  | [u] => [if isHighSurrogate u || isLowSurrogate u then replacement else Char.ofNat u]
  | u :: v :: rest =>
    if isHighSurrogate u then
      if isLowSurrogate v then combine u v :: decode rest else replacement :: decode (v :: rest)
    else if isLowSurrogate u then replacement :: decode (v :: rest)
    else Char.ofNat u :: decode (v :: rest)

end PairMarkup.Text.Utf16
