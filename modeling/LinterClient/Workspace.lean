import LinterClient.Url.File

/-!
Documents, and the folders of the open workspace.
-/

namespace LinterClient

/-- An open document as the settings see it. -/
structure TextDocument where
  uri : Url
  language : String
deriving DecidableEq

/-- The file that a document is kept in, if it is one. -/
def TextDocument.filePath? (d : TextDocument) : Option FilePath :=
  d.uri.filePath?

/-- A text without the slashes at its end. -/
def trimSlashes (s : String) : String :=
  String.ofList (s.toList.reverse.dropWhile (· = '/')).reverse

structure WorkspaceFolder where
  name : String
  uri : Url
deriving DecidableEq

namespace WorkspaceFolder

/-- The folder of a directory, named after its last component. -/
def ofPath? (p : FilePath) : Option WorkspaceFolder :=
  (Url.ofDirectoryPath? p).map fun uri =>
    ⟨match p.fileName? with
      | some name => Utf8.lossy name
      | none => p.text, uri⟩

def path? (f : WorkspaceFolder) : Option FilePath :=
  f.uri.filePath?

/-- The path of the folder's URL without slashes at its end. -/
def root (f : WorkspaceFolder) : String :=
  trimSlashes f.uri.path

/-- Whether a document lies in the folder: its URL's path is the folder's, or continues it after a
slash. -/
def contains (f : WorkspaceFolder) (uri : Url) : Bool :=
  f.uri.scheme = uri.scheme &&
    (uri.path = f.root || (f.root ++ "/").toList.isPrefixOf uri.path.toList)

/-- The folder's URL as the server receives it, without slashes at its end. -/
def normalizedUri (f : WorkspaceFolder) : String :=
  trimSlashes f.uri.text

end WorkspaceFolder

/-- The open folders, and the directory that holds the settings of the workspace as a whole. -/
structure Workspace where
  folders : List WorkspaceFolder
  settingsDir : Option FilePath
deriving DecidableEq

namespace Workspace

/-- A workspace whose settings are kept in its first folder. -/
def ofFolders (folders : List WorkspaceFolder) : Workspace :=
  ⟨folders, folders.head?.bind (·.path?)⟩

/-- A workspace of directories; paths that are not absolute are left out. -/
def ofPaths (paths : List FilePath) : Workspace :=
  ofFolders (paths.filterMap WorkspaceFolder.ofPath?)

def isOpen (w : Workspace) : Bool :=
  !w.folders.isEmpty

/-- Of two folders the one with the longer root, of equally long ones the second. -/
def innermost (best : Option WorkspaceFolder) (f : WorkspaceFolder) : Option WorkspaceFolder :=
  match best with
  | none => some f
  | some b => if b.root.utf8ByteSize ≤ f.root.utf8ByteSize then some f else some b

def folderFor? (w : Workspace) (uri : Url) : Option WorkspaceFolder :=
  (w.folders.filter (·.contains uri)).foldl innermost none

end Workspace

end LinterClient
