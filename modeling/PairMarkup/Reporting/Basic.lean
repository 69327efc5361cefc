import PairMarkup.Diagnostic.Collection

namespace PairMarkup

/-- Work that ended too early, and the diagnostics received until then. -/
structure Stopped where
  failure : Failure
  collected : List Diagnostic
deriving DecidableEq

/-- Work that hands what it finds to a collection, one diagnostic after the other, and
    ends at the first that is refused. -/
abbrev Reporting := StateT Collection (Except Stopped)

namespace Reporting

def report (d : Diagnostic) : Reporting Unit := fun c =>
  match c.receive d with
  | .ok received => .ok ((), received)
  | .error failure => .error ⟨failure, c.entries⟩

/-- A fault ends the work, whatever was collected. -/
def fail {α : Type} (fault : Fault) : Reporting α := fun c => .error ⟨.structural fault, c.entries⟩

end Reporting

end PairMarkup
