import LinterClient.Settings.Options
import LinterClient.Workspace

/-!
Open documents, and which of them the server knows.
-/

namespace LinterClient

private def configNames : List String :=
  [".eslintrc.js", ".eslintrc.yaml", ".eslintrc.yml", ".eslintrc", ".eslintrc.json", ".eslintignore",
    "package.json"]

private def lastSegment (path : String) : String :=
  String.ofList (path.toList.reverse.takeWhile (· ≠ '/')).reverse

def isConfigFile (uri : Url) : Bool :=
  uri.scheme = "file" && configNames.contains (lastSegment uri.path)

/-- Whether the server is told of a document: if it is linted, or configures the linter. -/
def shouldSync (uri : Url) (validate : Settings.Validate) : Bool :=
  validate ≠ .off || isConfigFile uri

structure OpenDocument where
  document : TextDocument
  text : String
  version : Int
deriving DecidableEq

def OpenDocument.uri (d : OpenDocument) : Url := d.document.uri

/-- The open documents, sorted by URL, and the URLs of those that the server was told of. -/
structure Documents where
  opened : List OpenDocument
  synced : List Url
deriving DecidableEq

namespace Documents

def empty : Documents := ⟨[], []⟩

def insertSorted (d : OpenDocument) : List OpenDocument → List OpenDocument
  | [] => [d]
  | e :: rest =>
    if d.uri = e.uri then d :: rest
    else if d.uri.text < e.uri.text then d :: e :: rest
    else e :: insertSorted d rest

/-- Adds a document, in place of an open one with the same URL. -/
def insert (docs : Documents) (d : OpenDocument) : Documents :=
  { docs with opened := insertSorted d docs.opened }

def get? (docs : Documents) (uri : Url) : Option OpenDocument :=
  docs.opened.find? (·.uri = uri)

def isSynced (docs : Documents) (uri : Url) : Bool :=
  docs.synced.contains uri

/-- Forgets a document and its mark. -/
def close (docs : Documents) (uri : Url) : Documents :=
  ⟨docs.opened.filter (·.uri ≠ uri), docs.synced.filter (· ≠ uri)⟩

/-- The document of a URL, if the server knows it. -/
def synced? (docs : Documents) (uri : Url) : Option TextDocument :=
  if docs.isSynced uri then (docs.get? uri).map (·.document) else none

/-- Whether a mark can be set: only once, and on an open document. -/
def canMark (docs : Documents) (uri : Url) : Bool :=
  (docs.get? uri).isSome && !docs.isSynced uri

def mark (docs : Documents) (uri : Url) : Documents :=
  if docs.canMark uri then { docs with synced := uri :: docs.synced } else docs

def unmark (docs : Documents) (uri : Url) : Documents :=
  { docs with synced := docs.synced.filter (· ≠ uri) }

def clearMarks (docs : Documents) : Documents :=
  { docs with synced := [] }

end Documents

end LinterClient
