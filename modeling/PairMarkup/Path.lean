namespace PairMarkup

inductive PathPart where
  | root
  | current
  | parent
  | named (name : String)
deriving DecidableEq

namespace PathPart

/-- Parts are ordered by kind, then by name. -/
def rank : PathPart → Nat × String
  | root => (0, "")
  | current => (1, "")
  | parent => (2, "")
  | named name => (3, name)

def le (a b : PathPart) : Bool :=
  a.rank.1 < b.rank.1 || (a.rank.1 = b.rank.1 && (a.rank.2 < b.rank.2 || a.rank.2 = b.rank.2))

end PathPart

namespace Path

variable (path : String)

def stretches : List Char → List (List Char)
  | [] => [[]]
  | c :: rest =>
    match stretches rest with
    | [] => []
    | first :: others => if c = '/' then [] :: first :: others else (c :: first) :: others

/-- The parts of a path. Repeated slashes count once, and a single dot counts
    only as the first part of a relative path. -/
def parts (path : String) : List PathPart :=
  match path.toList with
  | '/' :: rest => .root :: (stretches rest).filterMap part?
  | text =>
    match stretches text with
    | ['.'] :: rest => .current :: rest.filterMap part?
    | all => all.filterMap part?
where
  part? (stretch : List Char) : Option PathPart :=
    if stretch = [] || stretch = ['.'] then none
    else if stretch = ['.', '.'] then some .parent
    else some (.named (String.ofList stretch))

/-- Paths are ordered part by part. -/
def le (a b : String) : Bool := leParts (parts a) (parts b)
where
  leParts : List PathPart → List PathPart → Bool
    | [], _ => true
    | _ :: _, [] => false
    | p :: ps, q :: qs => if p = q then leParts ps qs else p.le q

def fileName? : Option String :=
  match (parts path).getLast? with
  | some (.named name) => some name
  | _ => none

/-- What comes before and after the last dot of a file name. A dot at the very
    beginning is no such dot. -/
def splitExtension (name : String) : String × Option String :=
  let after := name.toList.reverse.takeWhile (· ≠ '.')
  let before := (name.toList.reverse.drop (after.length + 1)).reverse
  if before.isEmpty then (name, none)
  else (String.ofList before, some (String.ofList after.reverse))

def extension? : Option String := (fileName? path).bind fun name => (splitExtension name).2

def fileStem? : Option String := (fileName? path).map fun name => (splitExtension name).1

/-- Puts `path` below `base`. An absolute path stays as it is. -/
def join (base path : String) : String :=
  if path.startsWith "/" then path
  else if base.isEmpty || base.endsWith "/" then base ++ path
  else base ++ "/" ++ path

/-- Paths are looked up only if they have fewer than 4096 bytes. -/
def isTooLong : Bool := 4096 ≤ path.utf8ByteSize

/-- The name of a file or directory has at most 255 bytes. -/
def isTooLongName (name : String) : Bool := 255 < name.utf8ByteSize

end Path

end PairMarkup
