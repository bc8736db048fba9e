import LinterClient.FilePath

/-!
The language of a file, by its extension.
-/

namespace LinterClient.Language

private def ofExtension (extension : String) : String :=
  if ["js", "mjs", "cjs"].contains extension then "javascript"
  else if extension = "jsx" then "javascriptreact"
  else if ["ts", "mts", "cts"].contains extension then "typescript"
  else if extension = "tsx" then "typescriptreact"
  else if extension = "vue" then "vue"
  else if ["html", "htm"].contains extension then "html"
  else if ["md", "markdown"].contains extension then "markdown"
  else if extension = "json" then "json"
  else "plaintext"

/-- The language id of a file. Its extension is compared in lower case. -/
def ofPath (p : FilePath) : String :=
  ofExtension (((p.extension?.bind Utf8.decode?).getD "").map Char.toLower)

end LinterClient.Language
