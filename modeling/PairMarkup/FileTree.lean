import PairMarkup.Options

namespace PairMarkup

/-- A file or a directory with everything in it. -/
inductive FileTree where
  | file (content : ByteArray)
  | directory (entries : List (String × FileTree))
deriving Inhabited

namespace FileTree

def isDirectory : FileTree → Bool
  | directory _ => true
  | file _ => false

/-- Everything outside of the working directory counts as one empty directory. -/
def outside : FileTree := directory []

/-- Goes down a path, stretch by stretch. Two dots lead back to the directory
    above, and an empty stretch or a single dot stays but asks for a directory. -/
def follow (above : List FileTree) (here : FileTree) : List (List Char) → Except ReadError FileTree
  | [] => .ok here
  | stretch :: rest =>
    match here with
    | file _ => .error .notDirectory
    | directory entries =>
      if stretch = [] || stretch = ['.'] then follow above here rest
      else if stretch = ['.', '.'] then
        match above with
        | [] => follow [] outside rest
        | parent :: above => follow above parent rest
      else
        let name := String.ofList stretch
        match entries.lookup name with
        | some entry => follow (here :: above) entry rest
        | none => .error (if Path.isTooLongName name then .nameTooLong else .notFound)

/-- What a path leads to from a working directory. -/
def find (working : FileTree) (path : String) : Except ReadError FileTree :=
  if path.toList.contains '\x00' then .error .nulInName
  else if Path.isTooLong path then .error .nameTooLong
  else
    match path.toList with
    | [] => .error .notFound
    | '/' :: rest => follow [] outside (Path.stretches rest)
    | text => follow [] working (Path.stretches text)

mutual

/-- The files of a directory that are taken, in no particular order. A directory
    whose path is too long cannot be recognised as one. -/
def search (options : Options) (path : String) : FileTree → List String
  | file _ => []
  | directory entries => searchEntries options path entries

def searchEntries (options : Options) (path : String) : List (String × FileTree) → List String
  | [] => []
  | (name, entry) :: entries =>
    let inner := Path.join path name
    let found :=
      if entry.isDirectory && !Path.isTooLong inner then
        if options.recursive then search options inner entry else []
      else if options.accepts inner then [inner]
      else []
    found ++ searchEntries options path entries

end

end FileTree

/-- How paths are looked up, and the directory that a tilde stands for. -/
structure Storage where
  find : String → Except ReadError FileTree
  home : Option String

namespace Storage

variable (storage : Storage)

/-- Puts the home directory in place of a leading tilde. -/
def expandHome (path : String) : String :=
  match path.toList, storage.home with
  | '~' :: '/' :: rest, some home => Path.join home (String.ofList rest)
  | _, _ => path

def read (path : String) : Except ReadError String :=
  match storage.find path with
  | .error error => .error error
  | .ok (.directory _) => .error .isDirectory
  | .ok (.file content) =>
    match String.fromUTF8? content with
    | some text => .ok text
    | none => .error .notUtf8

/-- The files that one path gives: itself, or what is found in a directory, in the
    order of the paths. -/
def inputsAt (options : Options) (path : String) : Except Failure (List String) :=
  let path := storage.expandHome path
  match storage.find path with
  | .ok (.file _) => .ok [path]
  | .ok tree => .ok ((tree.search options path).mergeSort Path.le)
  | .error _ => .error (.missingInput path)

def inputs (options : Options) (paths : List String) : Except Failure (List String) :=
  (paths.mapM (storage.inputsAt options)).map List.flatten

def readOptions (path : String) : Except Failure Options :=
  match storage.read path with
  | .error reason => .error (.options path (.unreadable reason))
  | .ok text => (Options.ofText text.toList).mapError (.options path)

end Storage

end PairMarkup
