import LinterClient.Documents
import LinterClient.FixOnSave
import LinterClient.Gate
import LinterClient.Settings.Record
import LinterClient.WorkingDirectory

/-!
The settings that the server receives for a document.

What depends on the document is filled in only if the server was told of it.
-/

namespace LinterClient

open Settings Json

private def objectOrEmpty : Option Json → Json
  | some (.obj m) => .obj m
  | _ => .obj []

def documentSettings {σ : Type} [Store σ] (s : σ) (failures : ProbeFailures) (documents : Documents)
    (uri : Url) : Settings.Record :=
  let read {α : Type} [Inhabited α] (decode : Decoder α) (key : String) : α :=
    Store.readOr decode default s key (some uri)
  let common : Settings.Record :=
    { validate := .off
      packageManager := read PackageManager.decode "packageManager"
      codeActionOnSave := ⟨false, read FixOnSaveMode.decode "codeActionsOnSave.mode"⟩
      format := false
      quiet := read .bool "quiet"
      onIgnoredFiles := read IgnoredFilesSeverity.decode "onIgnoredFiles"
      options := objectOrEmpty (Store.get s (Keys.qualified Keys.linter "options") (some uri))
      run := read RunTrigger.decode "run"
      nodePath := read (.nullable .string) "nodePath"
      workspaceFolder := none
      workingDirectory := none
      codeAction := ⟨read DisableRuleComment.decode "codeAction.disableRuleComment",
        read ShowDocumentation.decode "codeAction.showDocumentation"⟩ }
  match documents.synced? uri with
  | none => common
  | some document =>
    let validate := Gate.outcome s failures document
    let linted := validate ≠ .off
    let folder := (Store.workspace s).folderFor? uri
    let entries := read (.list WorkingDirectoryEntry.decode) "workingDirectories"
    { common with
      validate
      format := linted && read .bool "format.enable"
      codeActionOnSave :=
        { common.codeActionOnSave with enable := linted && FixOnSave.isEnabled s document }
      workspaceFolder := folder.map fun f => ⟨f.name, f.normalizedUri⟩
      workingDirectory := WorkingDirectory.resolve entries document folder }

end LinterClient
