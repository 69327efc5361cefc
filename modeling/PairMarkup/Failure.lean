namespace PairMarkup

/-- Ways to break the shape of a pair tree. -/
inductive Fault where
  | namespaceDefinitionOutOfOrder (name : String) (line column : Nat)
  | childrenNotAllowed (kind : String) (line column : Nat)
deriving DecidableEq

def Fault.message : Fault → String
  | namespaceDefinitionOutOfOrder name line column =>
    "namespace definition '" ++ name ++ "' at " ++ toString line ++ ":" ++ toString column ++
      " must precede all other content of its parent"
  | childrenNotAllowed kind line column =>
    kind ++ " at " ++ toString line ++ ":" ++ toString column ++ " cannot have children"

inductive ReadError where
  | notFound
  | notDirectory
  | isDirectory
  | nameTooLong
  | nulInName
  | notUtf8
deriving DecidableEq

def ReadError.message : ReadError → String
  | notFound => "No such file or directory (os error 2)"
  | notDirectory => "Not a directory (os error 20)"
  | isDirectory => "Is a directory (os error 21)"
  | nameTooLong => "File name too long (os error 36)"
  | nulInName => "file name contained an unexpected NUL byte"
  | notUtf8 => "stream did not contain valid UTF-8"

inductive OptionsError where
  | unreadable (reason : ReadError)
  | malformed
  | noErrorsAllowed
deriving DecidableEq

namespace OptionsError

def number : OptionsError → Nat
  | unreadable _ => 302
  | malformed => 303
  | noErrorsAllowed => 303

def message : OptionsError → String
  | unreadable reason =>
    "Failed to read file: " ++ reason.message ++ " Hint: Check that the options file exists and is readable"
  | malformed => "Invalid options Hint: Options are a JSON object; unknown fields are ignored"
  | noErrorsAllowed => "max_errors must be at least 1"

end OptionsError

/-- What ends the work on a unit before it is complete. -/
inductive Failure where
  | missingInput (path : String)
  | unreadableInput (path : String) (reason : ReadError)
  | options (path : String) (error : OptionsError)
  | structural (fault : Fault)
  | tooManyErrors (limit : Nat)
deriving DecidableEq

namespace Failure

def message : Failure → String
  | missingInput path => fileError path "No such file or directory"
  | unreadableInput path reason => fileError path ("Failed to read file: " ++ reason.message)
  | options path error =>
    "[PAIRC] Options Error '" ++ path ++ "': " ++ error.message ++ " Code: " ++ toString error.number
  | structural fault => "[PAIRC] Structural Error: " ++ fault.message
  | tooManyErrors limit =>
    "[PAIRC] Too many errors: compilation stopped after " ++ toString limit ++ " diagnostics"
where
  fileError (path message : String) : String := "[PAIRC] File Error '" ++ path ++ "': " ++ message ++
      " Hint: Check that the path exists and is readable Code: 301"

end Failure

end PairMarkup
