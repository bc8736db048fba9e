import LinterClient.Json.Basic

/-!
What is shown to the user.
-/

namespace LinterClient.Window

inductive Level where
  | info
  | warning
  | error
deriving DecidableEq

def Level.name : Level → String
  | .info => "info"
  | .warning => "warning"
  | .error => "error"

/-- A message, with the titles of the actions it offers. A modal message waits for its answer. -/
structure Message where
  level : Level
  text : String
  actions : List String
  modal : Bool
deriving DecidableEq

structure StatusView where
  text : String
  tooltip : String
  level : Level
  visible : Bool
deriving DecidableEq

end LinterClient.Window
