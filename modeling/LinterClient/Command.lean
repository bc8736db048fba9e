/-!
Commands that the user can invoke.
-/

namespace LinterClient

inductive Command where
  /-- Migrate the settings of the active document without asking. -/
  | migrateSettings
  /-- Stop and start the server, and forget that it crashed. -/
  | restart
  | showOutput
deriving DecidableEq

namespace Command

def all : List Command := [.migrateSettings, .restart, .showOutput]

def id : Command → String
  | .migrateSettings => "eslint.migrateSettings"
  | .restart => "eslint.restart"
  | .showOutput => "eslint.showOutputChannel"

def ofId? (s : String) : Option Command :=
  all.find? (·.id = s)

end Command

end LinterClient
