import PairMarkup.Reporting.Building
import PairMarkup.Reporting.Resolving

namespace PairMarkup

/-- A named text in one of the two formats. -/
structure Source where
  name : String
  format : Format
  text : List Char

/-- The modules read so far and what was reported about them. -/
structure Session where
  set : ModuleSet
  collection : Collection

namespace Session

def start (limit : Option Nat) : Session := ⟨.empty, .empty limit⟩

def parse (s : Session) (source : Source) : Except Stopped Session := do
  let (set, collection) ← Reporting.parse s.set source.name source.format source.text s.collection
  return ⟨set, collection⟩

def parseAll (s : Session) (sources : List Source) : Except Stopped Session := sources.foldlM parse s

def resolve (s : Session) : Except Stopped Session := do
  let (set, collection) ← Reporting.resolve s.set s.collection
  return ⟨set, collection⟩

end Session

end PairMarkup
