import LinterClient.CommandLine
import LinterClient.Language
import LinterClient.Session.Serving
import LinterClient.Task.Schedule
import LinterClient.Terminal

/-!
What command lines do, on any machine.
-/

namespace LinterClient.CommandLine

open Terminal (Output)

/-- Where a command line is used. -/
structure Place where
  directory : FilePath
  /-- The directory of the user, if it is known. -/
  home : Option FilePath
deriving DecidableEq

namespace Place

private def userDirectory (p : Place) : FilePath :=
  (p.home.map (·.join (.ofString ".lintbridge"))).getD (.ofString ".lintbridge")

def globalSettings (p : Place) : FilePath :=
  p.directory.absolute (p.userDirectory.join (.ofString "settings.toml"))

/-- The file of the memento. Without a home it is kept in memory. -/
def memento (p : Place) : Option FilePath :=
  p.home.map fun _ => p.userDirectory.join (.ofString "state.json")

def logFile (p : Place) : FilePath :=
  p.userDirectory.join (.ofString "logs/lintbridge.log")

end Place

/-- Why an action did not succeed. -/
inductive Failure where
  | noServer (e : Session.ClientError)
  | unreadable (file : FilePath) (reason : IoError)
  | notMigrated (failures : List Migration.Failure)

namespace Failure

/-- What went wrong, the outermost description first. -/
def chain : Failure → List String
  | .noServer e => "failed to start the linter server" :: e.chain
  | .unreadable file reason => ["failed to read " ++ file.text, reason.message]
  | .notMigrated failures => ["settings migration failed", Migration.failureMessage failures]

private def numbered (n : Nat) (cause : String) : String :=
  let number := toString n
  String.ofList (List.replicate (5 - number.length) ' ') ++ number ++ ": " ++
    cause.replace "\n" "\n       "

private def causes : List String → String
  | [] => ""
  | [cause] => "\n\nCaused by:\n    " ++ cause.replace "\n" "\n    "
  | list => "\n\nCaused by:\n" ++ "\n".intercalate (list.zipIdx.map fun (c, n) => numbered n c)

/-- The report of a failure; several causes are numbered. -/
def report (f : Failure) : String :=
  match f.chain with
  | [] => ""
  | head :: rest => "Error: " ++ head ++ causes rest ++ "\n"

end Failure

/-- What an action has done. -/
structure Outcome where
  /-- What it printed beside the messages, in front of them. -/
  printed : Output
  failure : Option Failure
  /-- Whether the client goes on until the user interrupts. -/
  serves : Bool

private def done (printed : Output) : Outcome := ⟨printed, none, false⟩

private def failed (f : Failure) : Outcome := ⟨.empty, some f, false⟩

def workspace (c : CommandLine) (place : Place) : Workspace :=
  .ofPaths (c.workspaces.map place.directory.absolute)

/-- The document of a file, if its path has a URL. -/
def document? (place : Place) (file : FilePath) (language : Option String) : Option TextDocument :=
  let path := place.directory.absolute file
  (Url.ofFilePath? path).map fun uri => ⟨uri, language.getD (Language.ofPath path)⟩

def launch? {σ : Type} [Store σ] (c : CommandLine) (place : Place) (store : σ) : Option Launch :=
  match c.action with
  | .run _ server =>
    let module := (place.directory.absolute server).text
    ((Launch.ofModule module).toOption).map fun l =>
      { l with
        runtime := (Store.read? .string store "runtime" none).getD l.runtime
        execArgv := Store.readOr (.list .string) [] store "execArgv" none }
  | _ => none

def terminal (c : CommandLine) (logFile : Option FilePath) : Terminal where
  answer := c.answer
  logFile
  printsStatus := match c.action with
    | .run _ _ => true
    | _ => false

variable {σ : Type} [Host σ]

/-- Prints the settings of a document, as if the server was told of it. -/
private def printSettings (place : Place) (file : FilePath) (language : Option String) :
    Task σ Outcome := do
  match document? place file language with
  | none => pure (done .empty)
  | some d =>
    let s ← .get
    .modify fun s => { s with documents := s.documents.insert ⟨d, "", 1⟩ }
    let synced := shouldSync d.uri (Gate.outcome s.store s.failures d)
    if synced then .modify fun s => { s with documents := s.documents.mark d.uri }
    let settings ← Session.settingsFor d.uri
    let notice := if synced then ""
      else file.text ++ " is not validated; the server would not see it.\n"
    pure (done ⟨settings.written.pretty ++ "\n", notice⟩)

private def changeText (c : Migration.Change) : String :=
  c.tier.name ++ " " ++ c.key ++
    (match c.value with
      | some v => " = " ++ v.text
      | none => " removed") ++ "\n"

/-- Prints what a migration changes, and writes it if that is asked for. -/
private def migrate (place : Place) (file : FilePath) (apply : Bool) : Task σ Outcome := do
  let r ← Session.recordMigration (Url.ofFilePath? (place.directory.absolute file))
  if !r.needsUpdate then return done ⟨"No migration needed.\n", ""⟩
  let changes := String.join (r.changes.map changeText)
  if !apply then return done ⟨changes, ""⟩
  let failures ← Session.update r
  if failures.isEmpty then return done ⟨changes ++ "Migration applied.\n", ""⟩
  return ⟨⟨changes, ""⟩, some (.notMigrated failures), false⟩

private def openFiles (place : Place) : List FilePath → Task σ Outcome
  | [] => pure ⟨.empty, none, true⟩
  | file :: rest => do
    match document? place file none, Host.readText (← .get).store (place.directory.absolute file) with
    | _, .error e => pure (failed (.unreadable file e))
    | none, .ok _ => openFiles place rest
    | some d, .ok text => do
      Session.didOpen ⟨d, text, 1⟩
      openFiles place rest

private def run (place : Place) (files : List FilePath) : Task σ Outcome := do
  match ← Session.start with
  | .error e => pure (failed (.noServer e))
  | .ok () => openFiles place files

def perform (c : CommandLine) (place : Place) : Task σ Outcome :=
  match c.action with
  | .settings file language => printSettings place file language
  | .migrate file apply => migrate place file apply
  | .run files _ => run place files

/-- The values that a command line starts with. Only a client that runs on needs those of earlier
clients; if they cannot be read, it does without. -/
def memento (c : CommandLine) (place : Place) (fs : FileSystem) : Memento × FileSystem :=
  match c.action, place.memento with
  | .run _ _, some p =>
    let (loaded, fs) := Memento.load fs p
    (loaded.toOption.getD .inMemory, fs)
  | _, _ => (.inMemory, fs)

/-- How a command line ended. -/
structure Ending (σ : Type) where
  /-- Zero if it succeeded. -/
  code : Nat
  output : Output
  store : σ

/-- Carries out a command line, until the user interrupts it once nothing more can happen. -/
def execute (c : CommandLine) (place : Place) (env : Surroundings (Session σ) Wait Job) (limit : Nat)
    (s : Session σ) : Ending σ :=
  let (outcome, tasks) := (Schedule.ofState s).run env limit (perform c place)
  let outcome := outcome.getD (done .empty)
  let tasks := if outcome.serves
    then ((tasks.runJob env limit (.serve none)).run env limit Session.stop).2
    else tasks
  let printed := outcome.printed ++ (c.terminal (some place.logFile)).output tasks.state.window.shown
  match outcome.failure with
  | none => ⟨0, printed, tasks.state.store⟩
  | some f => ⟨1, printed ++ ⟨"", f.report⟩, tasks.state.store⟩

end LinterClient.CommandLine
