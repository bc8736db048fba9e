import LinterClient.AtomicWrite
import LinterClient.KeyPath
import LinterClient.Store.Basic
import LinterClient.Toml.Edit
import LinterClient.Toml.Parser
import LinterClient.Toml.Printer

/-!
A store that keeps each tier in a TOML file.

A file that cannot be read holds no settings. A write edits the file in place, so that all other
settings and their comments stay.
-/

namespace LinterClient

open Json (Members)
open FileSystem (Script)

structure FileStore where
  workspace : Workspace
  globalPath : FilePath
  files : FileSystem
deriving DecidableEq

namespace FileStore

/-- The directory that holds the settings of the user, of a workspace or of a folder. -/
def settingsDirectory : FilePath := .ofString ".lintbridge"

def settingsFile : FilePath := settingsDirectory.join (.ofString "settings.toml")

def workspaceFile : FilePath := settingsDirectory.join (.ofString "workspace.toml")

/-- The file of a tier, if the tier exists for a resource. -/
def path? (s : FileStore) (resource : Option Url) : Tier → Option FilePath
  | .global => some s.globalPath
  | .workspace => s.workspace.settingsDir.map (·.join workspaceFile)
  | .folder =>
    ((resource.bind s.workspace.folderFor?).bind (·.path?)).map (·.join settingsFile)

/-- The settings in a file; none if it cannot be read as a whole. -/
def settings (fs : FileSystem) (p : FilePath) : Members :=
  match fs.readText p with
  | .ok text => ((Toml.Document.parse? text).bind Toml.Document.toJson?).getD []
  | .error _ => []

def inspect (s : FileStore) (key : String) (resource : Option Url) : Scoped Json :=
  .ofFn fun t => (s.path? resource t).bind fun p =>
    KeyPath.lookup (settings s.files p) (KeyPath.segments key)

private def missingTier (w : SettingWrite) : StoreError :=
  match w.tier with
  | .folder => .noWorkspaceFolder (w.resource.map (·.text))
  | t => .noWorkspace t

/-- What is stored for a value; nothing for a value that removes the key. -/
def itemOf (key : String) : Option Json → Except StoreError (Option Toml.Item)
  | none | some .null => .ok none
  | some v =>
    match Toml.Item.ofJson? v with
    | some i => .ok (some i)
    | none => .error (.unrepresentable key "TOML has no null")

/-- The new text of a file, or nothing if there is nothing to be removed from. -/
def edited (p : FilePath) (item : Option Toml.Item) (path : List String)
    (old : Except IoError String) : Except StoreError (Option String) :=
  let apply := fun (text : String) =>
    match Toml.Document.parse? text with
    | some d => .ok (some (d.update item path).text)
    | none => .error (.edit p.text)
  match old with
  | .ok text => apply text
  | .error .notFound => if item.isNone then .ok none else apply ""
  | .error e => .error (.read p.text e)

/-- Edits one file, after an interrupted write to it was undone. -/
def editFile (p : FilePath) (item : Option Toml.Item) (path : List String) :
    Script (Except StoreError Unit) := do
  AtomicWrite.recover p
  match edited p item path (← FileSystem.Script.readText p) with
  | .error e => pure (.error e)
  | .ok none => pure (.ok ())
  | .ok (some text) =>
    let result ← AtomicWrite.write p (Utf8.encode text) .default
    pure (result.mapError (.write p.text))

/-- The calls that a write makes. -/
def writeScript (s : FileStore) (w : SettingWrite) : Script (Except StoreError Unit) :=
  match s.path? w.resource w.tier with
  | none => pure (.error (missingTier w))
  | some p =>
    match itemOf w.key w.value with
    | .error e => pure (.error e)
    | .ok item => editFile p item (KeyPath.segments w.key)

def write (s : FileStore) (w : SettingWrite) : Except StoreError Unit × FileStore :=
  let (result, files) := (s.writeScript w).run s.files
  (result, { s with files })

instance : Store FileStore where
  workspace := workspace
  inspect := inspect
  write := write

end FileStore

end LinterClient
