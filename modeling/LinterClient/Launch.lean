import LinterClient.Json.Decode
import LinterClient.Text.Blank

/-!
How the server process is started.
-/

namespace LinterClient

open Json (Decoder DecodeError Fields)

/-- A server is a module that a runtime executes. -/
structure Launch where
  runtime : String
  execArgv : List String
  serverModule : String
  cwd : Option String
deriving DecidableEq

namespace Launch

/-- Why a server cannot be started as described. -/
inductive Error where
  | emptyModule
  | emptyRuntime
deriving DecidableEq

def Error.message : Error → String
  | .emptyModule => "server module path must not be empty"
  | .emptyRuntime => "runtime must not be empty"

def defaultRuntime : String := "node"

/-- A description with its runtime filled in; a blank runtime is refused before an empty module. -/
def check (runtime : Option String) (execArgv : List String) (serverModule : String)
    (cwd : Option String) : Except Error Launch :=
  if runtime.any fun r => Text.trim r.toList = [] then .error .emptyRuntime
  else if serverModule = "" then .error .emptyModule
  else .ok ⟨runtime.getD defaultRuntime, execArgv, serverModule, cwd⟩

/-- The module under the default runtime. -/
def ofModule (serverModule : String) : Except Error Launch :=
  check none [] serverModule none

private def fields : Fields (Except Error Launch) :=
  check <$> .optional "runtime" .string
    <*> .withDefault "execArgv" (.list .string) []
    <*> .required "serverModule" .path
    <*> .optional "cwd" .path

def decode : Decoder Launch := fun v => do
  match ← fields.decode "RawServerLaunch" v with
  | .ok l => .ok l
  | .error e => .error (.rejected e.message)

/-- The arguments of the runtime: its own, the module, and the choice of the standard streams. -/
def args (l : Launch) : List String :=
  l.execArgv ++ [l.serverModule, "--stdio"]

end Launch

end LinterClient
