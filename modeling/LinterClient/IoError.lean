/-!
Errors of the operating system, with their numbers and texts.
-/

namespace LinterClient

inductive IoError where
  | notFound
  | permissionDenied
  | alreadyExists
  | notADirectory
  | isADirectory
  | directoryNotEmpty
  | invalidInput
  | nameTooLong
  | nulInPath
  /-- The content of a file is no text. -/
  | notText
  /-- Any other error, by its text. -/
  | other (text : String)
deriving DecidableEq

namespace IoError

def kind : IoError → String
  | .notFound => "NotFound"
  | .permissionDenied => "PermissionDenied"
  | .alreadyExists => "AlreadyExists"
  | .notADirectory => "NotADirectory"
  | .isADirectory => "IsADirectory"
  | .directoryNotEmpty => "DirectoryNotEmpty"
  | .invalidInput => "InvalidInput"
  | .nameTooLong => "InvalidFilename"
  | .nulInPath => "InvalidInput"
  | .notText => "InvalidData"
  | .other _ => "Other"

def message : IoError → String
  | .notFound => "No such file or directory (os error 2)"
  | .permissionDenied => "Permission denied (os error 13)"
  | .alreadyExists => "File exists (os error 17)"
  | .notADirectory => "Not a directory (os error 20)"
  | .isADirectory => "Is a directory (os error 21)"
  | .directoryNotEmpty => "Directory not empty (os error 39)"
  | .invalidInput => "Invalid argument (os error 22)"
  | .nameTooLong => "File name too long (os error 36)"
  | .nulInPath => "file name contained an unexpected NUL byte"
  | .notText => "stream did not contain valid UTF-8"
  | .other text => text

end IoError

end LinterClient
