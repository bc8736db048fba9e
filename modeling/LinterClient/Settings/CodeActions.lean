import LinterClient.Json.Decode
import LinterClient.Settings.Keys

/-!
The mapping from code actions to whether they run when a document is saved.
-/

namespace LinterClient.Settings

open LinterClient.Json

/-- Whether a value turns a code action on or off. Texts other than the three known ones and values of
other kinds decide nothing. -/
def actionFlag : Json → Option Bool
  | .bool b => some b
  | .str s =>
    if s = "explicit" ∨ s = "always" then some true
    else if s = "never" then some false
    else none
  | _ => none

structure CodeActions where
  members : Members
deriving DecidableEq

namespace CodeActions

def empty : CodeActions := ⟨[]⟩

/-- The mapping in a stored value; anything but an object is the empty mapping. -/
def ofValue : Option Json → CodeActions
  | some (.obj m) => ⟨m⟩
  | _ => empty

def decode : Decoder CodeActions := fun v => (Decoder.members v).map mk

def get? (a : CodeActions) (id : String) : Option Json :=
  Members.get? a.members id

/-- Whether the generic action is on, if the mapping decides it. -/
def fixAll (a : CodeActions) : Option Bool :=
  (a.get? Keys.fixAll).bind actionFlag

/-- Whether the linter's action is on, if the mapping decides it. -/
def linterFixAll (a : CodeActions) : Option Bool :=
  (a.get? Keys.linterFixAll).bind actionFlag

def setLinterFixAll (a : CodeActions) (on : Bool) : CodeActions :=
  ⟨Members.insert Keys.linterFixAll (.bool on) a.members⟩

/-- A literal `false` for the linter's action opts out for good; texts such as `never` do not. -/
def isOptedOut (a : CodeActions) : Bool :=
  a.get? Keys.linterFixAll = some (.bool false)

def toJson (a : CodeActions) : Json := .obj a.members

end CodeActions

end LinterClient.Settings
