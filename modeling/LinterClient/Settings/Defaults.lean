import LinterClient.Json.Basic

/-!
The values that settings have when no tier defines them.
-/

namespace LinterClient.Settings

/-- Languages that are linted if the server finds that it can. -/
def probedLanguages : List String :=
  ["javascript", "javascriptreact", "typescript", "typescriptreact", "html", "vue", "markdown"]

/-- The registered defaults by their full keys. -/
def defaults : List (String × Json) :=
  [("eslint.enable", .bool true),
   ("eslint.validate", .arr []),
   ("eslint.execArgv", .arr []),
   ("eslint.probe", .ofStrings probedLanguages),
   ("eslint.packageManager", .str "npm"),
   ("eslint.quiet", .bool false),
   ("eslint.format.enable", .bool false),
   ("eslint.alwaysShowStatus", .bool false),
   ("eslint.autoFixOnSave", .bool false),
   ("eslint.onIgnoredFiles", .str "off"),
   ("eslint.options", .obj []),
   ("editor.codeActionsOnSave", .obj []),
   ("eslint.run", .str "onType"),
   ("eslint.nodePath", .null),
   ("eslint.runtime", .null),
   ("eslint.codeAction.disableRuleComment",
     .obj [("enable", .bool true), ("location", .str "separateLine")]),
   ("eslint.codeAction.showDocumentation", .obj [("enable", .bool true)]),
   ("eslint.codeActionsOnSave.mode", .str "all"),
   ("eslint.migration.2_x", .str "on")]

/-- The default of a full key, if it has one. -/
def defaultValue (key : String) : Option Json :=
  defaults.lookup key

end LinterClient.Settings
