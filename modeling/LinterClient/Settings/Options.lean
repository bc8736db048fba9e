import LinterClient.Json.Decode

/-!
Settings that take one of a few values, and the records made of such settings. Each has a default.
-/

namespace LinterClient.Settings

open LinterClient.Json

inductive PackageManager where
  | npm
  | yarn
  | pnpm
deriving DecidableEq

namespace PackageManager

instance : Inhabited PackageManager := ⟨.npm⟩

def variants : List (String × PackageManager) := [("npm", .npm), ("yarn", .yarn), ("pnpm", .pnpm)]

def name : PackageManager → String
  | .npm => "npm"
  | .yarn => "yarn"
  | .pnpm => "pnpm"

def decode : Decoder PackageManager := .variant variants

def toJson (p : PackageManager) : Json := .str p.name

/-- The command that installs the linter for one project. -/
def localInstall : PackageManager → String
  | .npm => "npm install eslint"
  | .yarn => "yarn add eslint"
  | .pnpm => "pnpm install eslint"

/-- The command that installs the linter for all projects. -/
def globalInstall : PackageManager → String
  | .npm => "npm install -g eslint"
  | .yarn => "yarn global add eslint"
  | .pnpm => "pnpm install -g eslint"

end PackageManager

/-- When documents are linted. -/
inductive RunTrigger where
  | onType
  | onSave
deriving DecidableEq

namespace RunTrigger

instance : Inhabited RunTrigger := ⟨.onType⟩

def variants : List (String × RunTrigger) := [("onType", .onType), ("onSave", .onSave)]

def name : RunTrigger → String
  | .onType => "onType"
  | .onSave => "onSave"

def decode : Decoder RunTrigger := .variant variants

def toJson (r : RunTrigger) : Json := .str r.name

end RunTrigger

inductive IgnoredFilesSeverity where
  | off
  | warn
  | error
deriving DecidableEq

namespace IgnoredFilesSeverity

instance : Inhabited IgnoredFilesSeverity := ⟨.off⟩

def variants : List (String × IgnoredFilesSeverity) :=
  [("off", .off), ("warn", .warn), ("error", .error)]

def name : IgnoredFilesSeverity → String
  | .off => "off"
  | .warn => "warn"
  | .error => "error"

def decode : Decoder IgnoredFilesSeverity := .variant variants

def toJson (s : IgnoredFilesSeverity) : Json := .str s.name

end IgnoredFilesSeverity

inductive FixOnSaveMode where
  | all
  | problems
deriving DecidableEq

namespace FixOnSaveMode

instance : Inhabited FixOnSaveMode := ⟨.all⟩

def variants : List (String × FixOnSaveMode) := [("all", .all), ("problems", .problems)]

def name : FixOnSaveMode → String
  | .all => "all"
  | .problems => "problems"

def decode : Decoder FixOnSaveMode := .variant variants

def toJson (m : FixOnSaveMode) : Json := .str m.name

end FixOnSaveMode

/-- Whether a document is linted: never, always, or if the server finds that it can. -/
inductive Validate where
  | off
  | on
  | probe
deriving DecidableEq

namespace Validate

instance : Inhabited Validate := ⟨.off⟩

def variants : List (String × Validate) := [("off", .off), ("on", .on), ("probe", .probe)]

def name : Validate → String
  | .off => "off"
  | .on => "on"
  | .probe => "probe"

def decode : Decoder Validate := .variant variants

def toJson (v : Validate) : Json := .str v.name

end Validate

/-- Where a comment that disables a rule is placed. -/
inductive CommentLocation where
  | separateLine
  | sameLine
deriving DecidableEq

namespace CommentLocation

instance : Inhabited CommentLocation := ⟨.separateLine⟩

def variants : List (String × CommentLocation) :=
  [("separateLine", .separateLine), ("sameLine", .sameLine)]

def name : CommentLocation → String
  | .separateLine => "separateLine"
  | .sameLine => "sameLine"

def decode : Decoder CommentLocation := .variant variants

def toJson (l : CommentLocation) : Json := .str l.name

end CommentLocation

/-- Whether the user may be asked to migrate settings. -/
inductive MigrationPrompts where
  | on
  | off
deriving DecidableEq

namespace MigrationPrompts

instance : Inhabited MigrationPrompts := ⟨.on⟩

def variants : List (String × MigrationPrompts) := [("on", .on), ("off", .off)]

def name : MigrationPrompts → String
  | .on => "on"
  | .off => "off"

def decode : Decoder MigrationPrompts := .variant variants

def toJson (p : MigrationPrompts) : Json := .str p.name

end MigrationPrompts

structure DisableRuleComment where
  enable : Bool
  location : CommentLocation
deriving DecidableEq

namespace DisableRuleComment

instance : Inhabited DisableRuleComment := ⟨⟨true, .separateLine⟩⟩

private def fields : Fields DisableRuleComment :=
  mk <$> .withDefault "enable" .bool true
    <*> .withDefault "location" CommentLocation.decode .separateLine

def decode : Decoder DisableRuleComment := fields.decode "DisableRuleComment"

def toJson (c : DisableRuleComment) : Json :=
  .obj [("enable", .bool c.enable), ("location", c.location.toJson)]

end DisableRuleComment

structure ShowDocumentation where
  enable : Bool
deriving DecidableEq

namespace ShowDocumentation

instance : Inhabited ShowDocumentation := ⟨⟨true⟩⟩

private def fields : Fields ShowDocumentation :=
  mk <$> .withDefault "enable" .bool true

def decode : Decoder ShowDocumentation := fields.decode "ShowDocumentation"

def toJson (d : ShowDocumentation) : Json :=
  .obj [("enable", .bool d.enable)]

end ShowDocumentation

end LinterClient.Settings
