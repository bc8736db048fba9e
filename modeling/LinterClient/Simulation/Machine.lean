import LinterClient.Session.Serving
import LinterClient.Simulation.ServerScript
import LinterClient.Store.Files
import LinterClient.Store.Memory
import LinterClient.Terminal

/-!
A machine in memory, on which a client runs without an editor and without real processes.

The user answers messages from a list or sits at a terminal, servers follow scripts, and writes of
settings can be made to fail or be preceded by what others do.
-/

namespace LinterClient.Simulation

open Json (Members)

/-- Something that others do just before a setting is written: they write one too, or want something to
be done after the update. -/
structure Interruption where
  key : String
  write : Option SettingWrite
  defer : Option String

/-- What a server does when it receives a method: it closes its output, writes raw bytes and messages,
and answers. -/
structure Reaction where
  close : Bool
  raw : List UInt8
  messages : List Json
  /-- The members that its answers hold, each in a message of its own. -/
  answers : Members

/-- A server that follows a script, and what it received. -/
structure Script where
  connection : Nat
  reactions : List (String × Reaction)
  received : List Json

/-- A server that runs as a process, and the rest of its script. -/
structure Process where
  connection : Nat
  steps : List ServerScript.Step
  /-- The last message that it read. -/
  last : String
  /-- The values of its variables, the newest first. -/
  values : List (String × String)

/-- Where a machine keeps settings. -/
inductive Backing where
  | memory (store : MemoryStore)
  | files (workspace : Workspace) (globalPath : FilePath)

structure Machine where
  backing : Backing
  files : FileSystem
  /-- The keys and tiers whose writes fail. -/
  failing : List (String × Tier)
  interruptions : List Interruption
  /-- What the user will answer. -/
  answers : List (Option String)
  /-- Answers that are given at a time to modal messages. -/
  due : List (Nat × Nat × Option String)
  /-- How many messages the user saw. -/
  seen : Nat
  scripts : List Script
  /-- What others did. -/
  notes : List String
  /-- What tasks of others gave, by their names. -/
  outcomes : Members
  /-- The most modal messages that were open at once. -/
  mostModals : Nat
  /-- Where the client was started, and its servers with it. -/
  directory : FilePath
  processes : List Process
  /-- How many connections were looked at for new processes. -/
  started : Nat
  /-- The terminal at which the user sits, if that is so. -/
  terminal : Option Terminal

namespace Machine

/-- A machine on which nothing has happened. -/
def new (backing : Backing) (files : FileSystem) (answers : List (Option String)) : Machine :=
  ⟨backing, files, [], [], answers, [], 0, [], [], [], 0, .ofString "/", [], 0, none⟩

def workspace (m : Machine) : Workspace :=
  match m.backing with
  | .memory store => store.workspace
  | .files workspace _ => workspace

def inspect (m : Machine) : String → Option Url → Scoped Json :=
  match m.backing with
  | .memory store => store.inspect
  | .files workspace globalPath => (FileStore.mk workspace globalPath m.files).inspect

/-- The file of a tier, if settings are kept in files. -/
def path? (m : Machine) (resource : Option Url) (t : Tier) : Option FilePath :=
  match m.backing with
  | .memory _ => none
  | .files workspace globalPath => (FileStore.mk workspace globalPath m.files).path? resource t

def tier (m : Machine) (resource : Option Url) (t : Tier) : Json.Members :=
  match m.backing with
  | .memory store => store.tier resource t
  | .files _ _ => ((m.path? resource t).map (FileStore.settings m.files)).getD []

/-- A write of others, which does not fail on purpose. -/
def put (m : Machine) (w : SettingWrite) : Except StoreError Unit × Machine :=
  match m.backing with
  | .memory store =>
    let (result, store) := Store.write store w
    (result, { m with backing := .memory store })
  | .files workspace globalPath =>
    let (result, store) := (FileStore.mk workspace globalPath m.files).write w
    (result, { m with files := store.files })

instance : Host Machine where
  workspace := workspace
  inspect := inspect
  write m w :=
    if m.failing.contains (w.key, w.tier) then
      (.error (.write "/settings" (.other "disk full")), m)
    else m.put w
  readText m := m.files.readText
  saveMemento m memento :=
    let (result, files) := memento.save m.files
    (result, { m with files })

end Machine

abbrev State := Session Machine

def onMachine (f : Machine → Machine) (s : State) : State :=
  { s with store := f s.store }

def note (text : String) : State → State :=
  onMachine fun m => { m with notes := m.notes ++ [text] }

end LinterClient.Simulation
