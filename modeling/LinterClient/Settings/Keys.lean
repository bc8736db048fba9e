/-!
Names of the settings that are read and written.
-/

namespace LinterClient.Settings.Keys

/-- The namespace of the linter's own settings. -/
def linter : String := "eslint"

/-- The namespace of the editor's settings. -/
def editor : String := "editor"

/-- The id of the code action that fixes everything. -/
def fixAll : String := "source.fixAll"

/-- The id of the code action that fixes what the linter reports. -/
def linterFixAll : String := "source.fixAll.eslint"

def codeActionsOnSave : String := "editor.codeActionsOnSave"

def autoFixOnSave : String := "eslint.autoFixOnSave"

def validate : String := "eslint.validate"

def workingDirectories : String := "eslint.workingDirectories"

def languageSection (language : String) : String :=
  "[" ++ language ++ "]"

def languageCodeActions (language : String) : String :=
  languageSection language ++ "." ++ codeActionsOnSave

/-- A key inside a namespace; the empty namespace adds nothing. -/
def qualified (namespaceName key : String) : String :=
  if namespaceName = "" then key else namespaceName ++ "." ++ key

end LinterClient.Settings.Keys
