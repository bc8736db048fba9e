import LinterClient.Connection
import LinterClient.Documents
import LinterClient.Gate
import LinterClient.Memento
import LinterClient.Restart
import LinterClient.StatusItem
import LinterClient.Task.System

/-!
The state that the tasks of a client share, and what they wait for.
-/

namespace LinterClient

/-- A store whose machine also keeps the memento and the files that are linted. -/
class Host (σ : Type) extends Store σ where
  readText : σ → FilePath → Except IoError String
  /-- Writes the memento; a failed write may have left traces. -/
  saveMemento : σ → Memento → Except StoreError Unit × σ

/-- Work that is handed to the client's own task. -/
inductive ClientCommand where
  | configurationChanged
  | probeFailed (uri : Url)
  | status (status : Protocol.Status)
deriving DecidableEq

/-- What is done once a migration has written its settings. -/
inductive Continuation where
  /-- Tell the client's own task that the configuration changed. -/
  | configurationChanged
  /-- An action of another party, by its name. -/
  | named (name : String)
deriving DecidableEq

structure MigrationState where
  /-- The tickets of those who migrate or wait to, the holder's first. -/
  turns : List Nat
  nextTurn : Nat
  /-- Whether the user does not want to be asked again in this session. -/
  dismissed : Bool
  /-- What is done after the update that is running, if one is. -/
  inFlight : Option (Option Continuation)
deriving DecidableEq

namespace Window

/-- Something that the user sees. -/
inductive Event where
  | message (m : Message)
  | external (url : String)
  | output
  | status (view : StatusView)
deriving DecidableEq

/-- What was shown, and the messages that wait for an answer. -/
structure State where
  shown : List Event
  nextMessage : Nat
  unanswered : List (Nat × Message)
  answers : List (Nat × Option String)
  canOpen : Bool
deriving DecidableEq

end Window

inductive LogLevel where
  | error
  | warn
  | info
  | debug
deriving DecidableEq

structure LogLine where
  level : LogLevel
  text : String
deriving DecidableEq

/-- What the client's own task keeps. -/
structure Client where
  launch : Option Launch
  /-- The connection to the server, if one runs. -/
  server : Option Nat
  status : StatusItem
  restart : Restart.Policy
deriving DecidableEq

/-- Why a server cannot be started. -/
inductive LaunchError where
  | noLaunch
  | noRuntime (runtime : String)
  | notSpawned (path : String) (reason : IoError)
deriving DecidableEq

namespace LaunchError

/-- What went wrong, the outermost description first. -/
def chain : LaunchError → List String
  | .noLaunch => ["no linter server launch is configured"]
  | .noRuntime r => [r ++ " not found in PATH", "cannot find binary path"]
  | .notSpawned path reason => ["spawning " ++ path, reason.message]

end LaunchError

structure Session (σ : Type) where
  store : σ
  memento : Memento
  documents : Documents
  failures : ProbeFailures
  migration : MigrationState
  window : Window.State
  /-- Work for the client's own task, in order. -/
  commands : List ClientCommand
  connections : List Connection
  client : Client
  /-- Whether a server can be started as described. -/
  canLaunch : Launch → Except LaunchError Unit
  processId : Nat
  /-- The clock of timers, in milliseconds. -/
  clock : Nat
  /-- How long the machine has been running, in milliseconds. -/
  uptime : Nat
  log : List LogLine
  /-- The named continuations that were run. -/
  ran : List String

inductive Wait where
  | turn (ticket : Nat)
  | write (w : SettingWrite)
  | answer (message : Nat)
  | room (connection : Nat)
  | outgoing (connection : Nat)
  | incoming (connection : Nat)
  | eventRoom (connection : Nat)
  | reply (connection : Nat) (id : Nat) (deadline : Nat)
  /-- The end of all writing. -/
  | silence (connection : Nat)
  | exit (connection : Nat) (deadline : Nat)
  /-- Work for the client's own task. -/
  | work (deadline : Option Nat)
  | time (deadline : Nat)
deriving DecidableEq

/-- Tasks beside the client's own one. -/
inductive Job where
  /-- Write what is in the outbox. -/
  | writer (connection : Nat)
  | reader (connection : Nat)
  /-- Answer a request of the server. -/
  | answer (connection : Nat) (id : Json) (method : String) (params : Json)
  /-- Show a message, and the output if the answer asks for it. -/
  | announce (m : Window.Message) (action : String)
  /-- Do the work of the client's own task until a time, and then stop the server. -/
  | serve (deadline : Option Nat)
deriving DecidableEq

abbrev Task (σ α : Type) := Program (Session σ) Wait Job α

namespace Session

variable {σ : Type}

/-- A session in which nothing has happened. -/
def new [Store σ] (store : σ) (memento : Memento) (launch : Option Launch)
    (canLaunch : Launch → Except LaunchError Unit) (processId : Nat) : Session σ where
  store
  memento
  documents := .empty
  failures := .empty
  migration := ⟨[], 0, false, none⟩
  window := ⟨[], 0, [], [], true⟩
  commands := []
  connections := []
  client :=
    { launch
      server := none
      status := .new (Store.readOr .bool false store "alwaysShowStatus" none)
      restart := .new }
  canLaunch
  processId
  clock := 0
  uptime := 0
  log := []
  ran := []

def connection? (s : Session σ) (i : Nat) : Option Connection :=
  s.connections[i]?

/-- Changes a connection, and answers from what it was; without the connection, a default. -/
def onConnection (i : Nat) (default : α) (f : Connection → α × Connection) (s : Session σ) :
    α × Session σ :=
  match s.connections[i]? with
  | some c => ((f c).1, { s with connections := s.connections.set i (f c).2 })
  | none => (default, s)

def changeConnection (i : Nat) (f : Connection → Connection) (s : Session σ) : Session σ :=
  { s with connections := s.connections.modify i f }

def enqueue (c : ClientCommand) (s : Session σ) : Session σ :=
  { s with commands := s.commands ++ [c] }

def addLog (level : LogLevel) (text : String) (s : Session σ) : Session σ :=
  { s with log := s.log ++ [⟨level, text⟩] }

def events (s : Session σ) : List ServerEvent :=
  match s.client.server.bind s.connection? with
  | some c => c.events
  | none => []

private def holds (s : Session σ) (i : Nat) (p : Connection → Bool) : Bool :=
  (s.connection? i).all p

def ready (w : Wait) (s : Session σ) : Bool :=
  match w with
  | .turn t => s.migration.turns.head? = some t
  | .write _ => true
  | .answer m => (s.window.answers.lookup m).isSome
  | .room i => s.holds i (·.hasRoom)
  | .outgoing i => s.holds i fun c => !c.outbox.isEmpty
  | .incoming i => s.holds i (·.hasNext)
  | .eventRoom i => s.holds i (·.hasEventRoom)
  | .reply i id deadline => deadline ≤ s.clock || s.holds i fun c => !c.pending.contains id
  | .silence i => s.holds i fun c => !c.writing
  | .exit i deadline => deadline ≤ s.clock || s.holds i fun c => c.process = .exited
  | .work deadline =>
    deadline.any (· ≤ s.clock) || !s.commands.isEmpty || !s.events.isEmpty
  | .time deadline => deadline ≤ s.clock

end Session

def Wait.deadline? : Wait → Option Nat
  | .reply _ _ deadline | .exit _ deadline | .time deadline => some deadline
  | .work deadline => deadline
  | _ => none

end LinterClient
