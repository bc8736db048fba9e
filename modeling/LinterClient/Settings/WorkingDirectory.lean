import LinterClient.Json.Decode

/-!
Entries of the list of working directories, and the directory chosen for a document.
-/

namespace LinterClient.Settings

open LinterClient.Json

inductive WorkingDirectoryMode where
  | auto
  | location
deriving DecidableEq

namespace WorkingDirectoryMode

def variants : List (String × WorkingDirectoryMode) := [("auto", .auto), ("location", .location)]

def name : WorkingDirectoryMode → String
  | .auto => "auto"
  | .location => "location"

def decode : Decoder WorkingDirectoryMode := .variant variants

def toJson (m : WorkingDirectoryMode) : Json := .str m.name

end WorkingDirectoryMode

/-- An entry, or something that is none and is kept as it is. `noCwd` keeps the process where it is. -/
inductive WorkingDirectoryEntry where
  | path (directory : String)
  | legacy (directory : String) (changeProcessCwd : Bool)
  | directory (directory : String) (noCwd : Option Bool)
  | pattern (pattern : String) (noCwd : Option Bool)
  | mode (mode : WorkingDirectoryMode)
  | unrecognized (value : Json)
deriving DecidableEq

namespace WorkingDirectoryEntry

def legacyFields : Fields WorkingDirectoryEntry :=
  legacy <$> .required "directory" .string <*> .required "changeProcessCWD" .bool

def directoryFields : Fields WorkingDirectoryEntry :=
  directory <$> .required "directory" .string <*> .optional "!cwd" .bool

def patternFields : Fields WorkingDirectoryEntry :=
  pattern <$> .required "pattern" .string <*> .optional "!cwd" .bool

def modeFields : Fields WorkingDirectoryEntry :=
  mode <$> .required "mode" WorkingDirectoryMode.decode

/-- The kinds of entry in the order in which they are tried. -/
def decoders : List (Decoder WorkingDirectoryEntry) :=
  (fun v => (Decoder.string v).map path) ::
    [legacyFields, directoryFields, patternFields, modeFields].map
      (·.decodeObject "WorkingDirectoryEntry")

/-- Any value is an entry: the first kind that fits. -/
def ofJson (v : Json) : WorkingDirectoryEntry :=
  match Decoder.firstOf "WorkingDirectoryEntry" decoders v with
  | .ok e => e
  | .error _ => .unrecognized v

def decode : Decoder WorkingDirectoryEntry := fun v => .ok (ofJson v)

def withNoCwd (name value : String) (noCwd : Option Bool) : Json :=
  .ofMembers ((name, .str value) :: (noCwd.map fun b => [("!cwd", Json.bool b)]).getD [])

def toJson : WorkingDirectoryEntry → Json
  | .path d => .str d
  | .legacy d b => .ofMembers [("directory", .str d), ("changeProcessCWD", .bool b)]
  | .directory d noCwd => withNoCwd "directory" d noCwd
  | .pattern p noCwd => withNoCwd "pattern" p noCwd
  | .mode m => .ofMembers [("mode", m.toJson)]
  | .unrecognized v => v

/-- Whether the entry leaves open, or says in the old way, if the process changes its directory. -/
def isMigratable : WorkingDirectoryEntry → Bool
  | .legacy _ _ => true
  | .directory _ none => true
  | _ => false

def kind : WorkingDirectoryEntry → String
  | .path _ => "path"
  | .legacy _ _ => "legacy"
  | .directory _ _ => "directory"
  | .pattern _ _ => "pattern"
  | .mode _ => "mode"
  | .unrecognized _ => "unrecognized"

end WorkingDirectoryEntry

/-- The working directory that the server uses for one document. -/
inductive WorkingDirectory where
  | directory (directory : String) (noCwd : Bool)
  | mode (mode : WorkingDirectoryMode)
deriving DecidableEq

namespace WorkingDirectory

private def directoryFields : Fields WorkingDirectory :=
  directory <$> .required "directory" .string <*> .required "!cwd" .bool

private def modeFields : Fields WorkingDirectory :=
  mode <$> .required "mode" WorkingDirectoryMode.decode

def decode : Decoder WorkingDirectory :=
  .firstOf "ResolvedWorkingDirectory" ([directoryFields, modeFields].map
    (·.decodeObject "ResolvedWorkingDirectory"))

/-- The members in their written order. -/
def members : WorkingDirectory → Members
  | .directory d noCwd => [("directory", .str d), ("!cwd", .bool noCwd)]
  | .mode m => [("mode", m.toJson)]

def toJson (d : WorkingDirectory) : Json := .ofMembers d.members

end WorkingDirectory

end LinterClient.Settings
