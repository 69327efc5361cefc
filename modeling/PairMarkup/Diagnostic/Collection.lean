import PairMarkup.Diagnostic.Basic
import PairMarkup.Failure

namespace PairMarkup

/-- The diagnostics received so far, in order of arrival, and how many there may
    be at most. Without a limit every diagnostic is taken. -/
structure Collection where
  limit : Option Nat
  entries : List Diagnostic
deriving DecidableEq

namespace Collection

variable (c : Collection)

def empty (limit : Option Nat) : Collection := ⟨limit, []⟩

def isEmpty (c : Collection) : Bool := c.entries.isEmpty

def hasCode (code : Code) : Bool := c.entries.any (·.code = code)

/-- Takes one more diagnostic, unless the limit is reached. -/
def receive (d : Diagnostic) : Except Failure Collection :=
  match c.limit with
  | some limit =>
    if c.entries.length < limit then .ok { c with entries := c.entries ++ [d] }
    else .error (.tooManyErrors limit)
  | none => .ok { c with entries := c.entries ++ [d] }

/-- Hands `d` to one collection after the other. The first that refuses it ends
    this; those before it keep the diagnostic. -/
def broadcast (d : Diagnostic) : List Collection → Option Failure × List Collection
  | [] => (none, [])
  | c :: cs =>
    match c.receive d with
    | .error failure => (some failure, c :: cs)
    | .ok received =>
      let (outcome, others) := broadcast d cs
      (outcome, received :: others)

def sorted : List Diagnostic := Diagnostic.sort c.entries

end Collection

end PairMarkup
