import LinterClient.Protocol.Payload
import LinterClient.Window

/-!
The state behind the status item.
-/

namespace LinterClient

open Protocol (Status)

/-- What the server last reported, whether it runs, and whether a healthy state is shown. -/
structure StatusItem where
  status : Status
  alwaysShow : Bool
  running : Bool
deriving DecidableEq

namespace StatusItem

def new (alwaysShow : Bool) : StatusItem := ⟨.ok, alwaysShow, false⟩

def setStatus (s : StatusItem) (status : Status) : StatusItem :=
  { s with status }

def setAlwaysShow (s : StatusItem) (alwaysShow : Bool) : StatusItem :=
  { s with alwaysShow }

/-- A server that starts is healthy until it says otherwise. -/
def setRunning (s : StatusItem) (running : Bool) : StatusItem :=
  { s with running, status := if running then .ok else s.status }

/-- The status that is shown; a stopped server counts as an error. -/
def shown (s : StatusItem) : Status :=
  if s.running then s.status else .error

def tooltip (s : StatusItem) : String :=
  if s.running then
    match s.status with
    | .ok => "ESLint is running."
    | .warn => "ESLint reported a problem. Check the output."
    | .error => "ESLint failed. Check the output."
  else "ESLint server is not running."

def view (s : StatusItem) : Window.StatusView :=
  let (text, level) : String × Window.Level := match s.shown with
    | .ok => ("ESLint", .info)
    | .warn => ("ESLint (warning)", .warning)
    | .error => ("ESLint (error)", .error)
  ⟨text, s.tooltip, level, s.alwaysShow || s.shown ≠ .ok⟩

end StatusItem

end LinterClient
