import LinterClient.Settings.Options
import LinterClient.Settings.WorkingDirectory

/-!
The settings record that the server receives for one document.
-/

namespace LinterClient.Settings

open LinterClient.Json

structure CodeActionSettings where
  disableRuleComment : DisableRuleComment
  showDocumentation : ShowDocumentation
deriving DecidableEq

namespace CodeActionSettings

private def fields : Fields CodeActionSettings :=
  mk <$> .required "disableRuleComment" DisableRuleComment.decode
    <*> .required "showDocumentation" ShowDocumentation.decode

def decode : Decoder CodeActionSettings := fields.decode "CodeActionSettings"

def toJson (c : CodeActionSettings) : Json :=
  .obj [("disableRuleComment", c.disableRuleComment.toJson),
    ("showDocumentation", c.showDocumentation.toJson)]

end CodeActionSettings

structure FixOnSaveSettings where
  enable : Bool
  mode : FixOnSaveMode
deriving DecidableEq

namespace FixOnSaveSettings

private def fields : Fields FixOnSaveSettings :=
  mk <$> .required "enable" .bool <*> .required "mode" FixOnSaveMode.decode

def decode : Decoder FixOnSaveSettings := fields.decode "CodeActionOnSaveSettings"

def toJson (s : FixOnSaveSettings) : Json :=
  .obj [("enable", .bool s.enable), ("mode", s.mode.toJson)]

end FixOnSaveSettings

structure FolderSettings where
  name : String
  uri : String
deriving DecidableEq

namespace FolderSettings

private def fields : Fields FolderSettings :=
  mk <$> .required "name" .string <*> .required "uri" .string

def decode : Decoder FolderSettings := fields.decode "WorkspaceFolderSettings"

def toJson (f : FolderSettings) : Json :=
  .obj [("name", .str f.name), ("uri", .str f.uri)]

end FolderSettings

/-- All settings of one document, filled in. -/
structure Record where
  validate : Validate
  packageManager : PackageManager
  codeActionOnSave : FixOnSaveSettings
  format : Bool
  quiet : Bool
  onIgnoredFiles : IgnoredFilesSeverity
  options : Json
  run : RunTrigger
  nodePath : Option String
  workspaceFolder : Option FolderSettings
  workingDirectory : Option WorkingDirectory
  codeAction : CodeActionSettings
deriving DecidableEq

namespace Record

private def fields : Fields Record :=
  mk <$> .required "validate" Validate.decode
    <*> .required "packageManager" PackageManager.decode
    <*> .required "codeActionOnSave" FixOnSaveSettings.decode
    <*> .required "format" .bool
    <*> .required "quiet" .bool
    <*> .required "onIgnoredFiles" IgnoredFilesSeverity.decode
    <*> .required "options" .any
    <*> .required "run" RunTrigger.decode
    <*> .nullable "nodePath" .string
    <*> .optional "workspaceFolder" FolderSettings.decode
    <*> .optional "workingDirectory" WorkingDirectory.decode
    <*> .required "codeAction" CodeActionSettings.decode

def decode : Decoder Record := fields.decode "ConfigurationSettings"

/-- The members in their written order. The folder and the working directory are left out if there is
none. -/
def members (r : Record) : Members :=
  [("validate", r.validate.toJson), ("packageManager", r.packageManager.toJson),
    ("codeActionOnSave", r.codeActionOnSave.toJson), ("format", .bool r.format),
    ("quiet", .bool r.quiet), ("onIgnoredFiles", r.onIgnoredFiles.toJson), ("options", r.options),
    ("run", r.run.toJson), ("nodePath", .ofOption (r.nodePath.map .str))]
  ++ (r.workspaceFolder.map fun f => ("workspaceFolder", f.toJson)).toList
  ++ (r.workingDirectory.map fun d => ("workingDirectory", Json.obj d.members)).toList
  ++ [("codeAction", r.codeAction.toJson)]

def written (r : Record) : Json := .obj r.members

/-- The record as a value, its members sorted throughout. -/
def toJson (r : Record) : Json := r.written.sorted

end Record

end LinterClient.Settings
