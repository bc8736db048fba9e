/-!
The answers to the question whether settings are to be migrated.
-/

namespace LinterClient.Migration

inductive Choice where
  | migrate
  | never
  | docs
  | notNow
deriving DecidableEq

namespace Choice

/-- All choices in the order in which they are offered. -/
def all : List Choice := [.migrate, .never, .docs, .notNow]

def title : Choice → String
  | .migrate => "Yes"
  | .never => "No, don't ask again"
  | .docs => "Learn more"
  | .notNow => "Not now"

def ofTitle? (s : String) : Option Choice :=
  all.find? (·.title = s)

end Choice

end LinterClient.Migration
