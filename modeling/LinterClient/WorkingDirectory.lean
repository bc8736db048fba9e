import LinterClient.Glob
import LinterClient.Settings.WorkingDirectory
import LinterClient.Workspace

/-!
The working directory of a document: the longest directory that an entry finds above it.
-/

namespace LinterClient

open Settings (WorkingDirectoryEntry)

namespace WorkingDirectory

def withSlash (s : String) : String :=
  if s.endsWith "/" then s else s ++ "/"

/-- The directory of an entry, relative to the folder, if the file lies in it. -/
def matchDirectory? (directory : String) (file : Option String) (folder : Option FilePath) :
    Option String :=
  file.bind fun file =>
    let entry := FilePath.ofString directory
    let joined := match folder with
      | some root => if entry.isAbsolute then entry else root.join entry
      | none => entry
    let directory := withSlash joined.normalize.text
    if directory.toList.isPrefixOf file.toList then some directory else none

def dropDotSlashes : List Char → List Char
  | '.' :: '/' :: rest => dropDotSlashes rest
  | s => s

/-- The glob of an entry, relative to the folder, closed by a slash. -/
def fullPattern (pattern : String) (folder : Option FilePath) : String :=
  withSlash (match folder with
    | some root =>
      if pattern.startsWith "/" then pattern
      else trimSlashes root.text ++ "/" ++ String.ofList (dropDotSlashes pattern.toList)
    | none => pattern)

/-- The directory above the file that the entry's glob prefers. -/
def matchPattern? (pattern : String) (file : Option String) (folder : Option FilePath) :
    Option String :=
  file.bind fun file =>
    if pattern = "" then none else Glob.match? (fullPattern pattern folder) file

/-- What an entry offers for a document: a mode, a directory, or nothing. -/
inductive Offer where
  | mode (mode : Settings.WorkingDirectoryMode)
  | directory (directory : String) (noCwd : Bool)
  | nothing
deriving DecidableEq

private def Offer.ofMatch (found : Option String) (noCwd : Bool) : Offer :=
  match found with
  | some d => .directory d noCwd
  | none => .nothing

def offer (file : Option String) (folder : Option FilePath) : WorkingDirectoryEntry → Offer
  | .mode m => .mode m
  | .unrecognized _ => .nothing
  | .path d => .ofMatch (matchDirectory? d file folder) false
  | .legacy d change => .ofMatch (matchDirectory? d file folder) (!change)
  | .directory d noCwd => .ofMatch (matchDirectory? d file folder) (noCwd.getD false)
  | .pattern p noCwd => .ofMatch (matchPattern? p file folder) (noCwd.getD false)

/-- A mode replaces what came before it; a directory replaces a mode and no longer directory. -/
def choose (current : Option Settings.WorkingDirectory) : Offer → Option Settings.WorkingDirectory
  | .nothing => current
  | .mode m => some (.mode m)
  | .directory d noCwd =>
    match current with
    | some (.directory old oldNoCwd) =>
      if old.utf8ByteSize ≤ d.utf8ByteSize then some (.directory d noCwd)
      else some (.directory old oldNoCwd)
    | _ => some (.directory d noCwd)

def resolve (entries : List WorkingDirectoryEntry) (document : TextDocument)
    (folder : Option WorkspaceFolder) : Option Settings.WorkingDirectory :=
  let file := document.filePath?.map (·.text)
  let root := folder.bind (·.path?)
  entries.foldl (fun current e => choose current (offer file root e)) none

end WorkingDirectory

end LinterClient
