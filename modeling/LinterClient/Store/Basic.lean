import LinterClient.IoError
import LinterClient.Json.Decode
import LinterClient.Settings.Defaults
import LinterClient.Settings.Keys
import LinterClient.Tier
import LinterClient.Workspace

/-!
Stores of settings in three tiers.

A store answers what each tier holds for a key, and changes one tier at a time. The resource chooses
the folder whose tier counts.
-/

namespace LinterClient

/-- Why settings or the memento cannot be read or written. -/
inductive StoreError where
  | read (path : String) (reason : IoError)
  | edit (path : String)
  | write (path : String) (reason : IoError)
  | noWorkspace (tier : Tier)
  | noWorkspaceFolder (resource : Option String)
  | unrepresentable (key : String) (reason : String)
deriving DecidableEq

namespace StoreError

def message : StoreError → String
  | .read path reason => "failed to read " ++ path ++ ": " ++ reason.message
  | .edit path => "failed to edit " ++ path
  | .write path reason => "failed to write " ++ path ++ ": " ++ reason.message
  | .noWorkspace tier => "cannot write " ++ tier.name ++ " settings: no workspace is open"
  | .noWorkspaceFolder resource =>
    "cannot write folder settings: " ++ resource.getD "<none>" ++
      " is not inside a workspace folder"
  | .unrepresentable key reason => "value for '" ++ key ++ "' cannot be stored: " ++ reason

end StoreError

/-- A value to be written to one key of one tier; without a value the key is removed. -/
structure SettingWrite where
  key : String
  value : Option Json
  tier : Tier
  resource : Option Url
deriving DecidableEq

class Store (σ : Type) where
  workspace : σ → Workspace
  /-- What each tier holds for a key, defaults left out. -/
  inspect : σ → String → Option Url → Scoped Json
  /-- A write, and the store after it; a failed write may have left traces. -/
  write : σ → SettingWrite → Except StoreError Unit × σ

namespace Store

variable {σ : Type} [Store σ]

/-- The value of the narrowest tier, or else the default. -/
def get (s : σ) (key : String) (resource : Option Url) : Option Json :=
  (inspect s key resource).effective <|> Settings.defaultValue key

/-- The value of a linter setting, decoded. One of the wrong kind reads as absent. -/
def read? (d : Json.Decoder α) (s : σ) (key : String) (resource : Option Url) : Option α :=
  (get s (Settings.Keys.qualified Settings.Keys.linter key) resource).bind fun v => (d v).toOption

/-- The value of a linter setting, decoded, or a fallback. -/
def readOr (d : Json.Decoder α) (fallback : α) (s : σ) (key : String) (resource : Option Url) : α :=
  (read? d s key resource).getD fallback

end Store

end LinterClient
