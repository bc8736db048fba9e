import LinterClient.Command
import LinterClient.Session.Answering
import LinterClient.Session.Linking

/-!
The client's own task: it owns the connection, tells the server of documents, and reacts to what the
server reports.
-/

namespace LinterClient.Session

variable {σ : Type} [Host σ]

/-- Why an operation of the client failed. -/
inductive ClientError where
  | launch (e : LaunchError)
  | handshake (e : HandshakeError)
  | migration
deriving DecidableEq

namespace ClientError

/-- What went wrong, the outermost description first. -/
def chain : ClientError → List String
  | .launch e => e.chain
  | .handshake e => e.chain
  | .migration => ["settings migration failed"]

end ClientError

def onDocuments (f : Documents → Documents) : Task σ Unit :=
  .modify fun s => { s with documents := f s.documents }

def server : Task σ (Option Nat) := do
  pure (← .get).client.server

def withServer (f : Nat → Task σ Unit) : Task σ Unit := do
  match ← server with
  | some i => f i
  | none => pure ()

def setServer (i : Option Nat) (s : Session σ) : Session σ :=
  { s with client := { s.client with server := i } }

def updateStatus (f : StatusItem → StatusItem) : Task σ Unit := do
  .modify fun s => { s with client := { s.client with status := f s.client.status } }
  showStatus (← .get).client.status.view

/-- Tells the server of a document if it is linted or configures the linter, or that it was closed if it
no longer is. The mark is set first, since the server may ask for settings at once. -/
def syncDocument (i : Nat) (d : OpenDocument) : Task σ Unit := do
  let s ← .get
  let wanted := shouldSync d.uri (Gate.outcome s.store s.failures d.document)
  let synced := s.documents.isSynced d.uri
  if wanted && !synced then
    onDocuments (·.mark d.uri)
    match ← notifyOpened i d with
    | .ok () => pure ()
    | .error _ => onDocuments (·.unmark d.uri)
  else if !wanted && synced then
    onDocuments (·.unmark d.uri)
    let _ ← notifyClosed i d.uri

def syncEach (i : Nat) : List OpenDocument → Task σ Unit
  | [] => pure ()
  | d :: rest => do
    syncDocument i d
    syncEach i rest

def syncDocuments : Task σ Unit :=
  withServer fun i => do syncEach i (← .get).documents.opened

/-- Nobody takes the events of the running server any more. -/
def dropEvents (s : Session σ) : Session σ :=
  match s.client.server with
  | some i => changeConnection i (·.ignoreEvents) s
  | none => s

/-- Uses a new connection: the server is greeted and told of the documents. -/
def useConnection (i : Nat) : Task σ (Except ClientError Unit) := do
  let folders := (Store.workspace (← .get).store).folders.map fun f => (f.name, f.uri)
  match ← handshake i (folders.head?.map (·.2)) folders with
  | .error e => do
    shutdown i
    .modify (changeConnection i (·.ignoreEvents))
    return .error (.handshake e)
  | .ok _ => do
    .modify fun s => setServer (some i) (dropEvents s)
    updateStatus (·.setRunning true)
    syncDocuments
    return .ok ()

/-- Uses a server that already runs. -/
def attach : Task σ (Except ClientError Unit) := do
  useConnection (← connect Connection.defaultRequestTimeout .none)

/-- Starts the configured server and uses it. -/
def start : Task σ (Except ClientError Unit) := do
  let s ← .get
  match s.client.launch with
  | none => return .error (.launch .noLaunch)
  | some launch =>
    match s.canLaunch launch with
    | .error e => return .error (.launch e)
    | .ok () => useConnection (← connect Connection.defaultRequestTimeout (.running launch))

/-- Shuts the server down, if one runs. -/
def stop : Task σ Unit := do
  let running ← server
  .modify fun s => setServer none (dropEvents s)
  match running with
  | some i => shutdown i
  | none => pure ()
  onDocuments (·.clearMarks)
  updateStatus (·.setRunning false)

def didOpen (d : OpenDocument) : Task σ Unit := do
  onDocuments (·.insert d)
  withServer (syncDocument · d)

def didClose (uri : Url) : Task σ Unit := do
  let synced := (← .get).documents.isSynced uri
  onDocuments (·.close uri)
  if synced then
    withServer fun i => do
      let _ ← notifyClosed i uri

/-- The store was changed by others. While a migration writes settings, the reaction waits for its
end. -/
def configurationChanged (s : Session σ) : Session σ :=
  match defer .configurationChanged s with
  | (true, s) => s
  | (false, s) => s.enqueue .configurationChanged

def watchedFilesChanged (changes : List Protocol.FileEvent) : Task σ Unit := do
  .modify fun s => { s with failures := .empty }
  withServer fun i => do
    let _ ← notifyFiles i changes

def alwaysShow (s : Session σ) : Bool :=
  Store.readOr .bool false s.store "alwaysShowStatus" none

def reconfigure : Task σ Unit := do
  .modify fun s => { s with failures := .empty }
  let shown := alwaysShow (← .get)
  updateStatus (·.setAlwaysShow shown)
  syncDocuments
  withServer fun i => do
    let _ ← notifyConfiguration i

def handleCommand : ClientCommand → Task σ Unit
  | .configurationChanged => reconfigure
  | .status status => updateStatus (·.setStatus status)
  | .probeFailed uri => do
    let synced := (← .get).documents.isSynced uri
    .modify fun s =>
      { s with failures := s.failures.insert uri, documents := s.documents.unmark uri }
    if synced then
      withServer fun i => do
        let _ ← notifyClosed i uri

def handleNotification (method : String) (params : Json) : Task σ Unit :=
  match method with
  | "eslint/status" =>
    match Protocol.StatusParams.decode params with
    | .ok p => updateStatus (·.setStatus p.state)
    | .error _ => pure ()
  | "eslint/exitCalled" =>
    match Protocol.ExitCalledParams.decode params with
    | .ok p => do
      .modify fun s => { s with client := { s.client with restart := s.client.restart.noteExit } }
      writeLog .error ("Server process exited with code " ++ toString p.exitCode ++
        ". This usually indicates a misconfigured ESLint setup. " ++ p.message)
      announceLater .error "ESLint server shut down itself. See the output for details."
        showOutputTitle
    | .error _ => pure ()
  | _ => pure ()

def restartAfterCrash : Task σ Unit := do
  if (← .get).client.launch.isSome then
    match ← start with
    | .ok () => pure ()
    | .error e =>
      announceLater .error
        ("Failed to restart the ESLint server. " ++ ": ".intercalate e.chain) showOutputTitle

def serverStopped : Task σ Unit := do
  match ← server with
  | some i => .modify (changeConnection i endProcess)
  | none => pure ()
  .modify fun s => setServer none (dropEvents s)
  onDocuments (·.clearMarks)
  updateStatus (·.setRunning false)
  let decision ← .modifyGet fun s =>
    let (decision, restart) := s.client.restart.onStopped s.uptime
    (decision, { s with client := { s.client with restart } })
  match decision with
  | .restart => restartAfterCrash
  | .exitCalled => pure ()
  | .giveUp =>
    announceLater .error ("The ESLint server crashed " ++ toString (Restart.maxRestarts + 1) ++
      " times in the last 3 minutes. The server will not be restarted.") showOutputTitle

def handleEvent : ServerEvent → Task σ Unit
  | .notification method params => handleNotification method params
  | .stopped _ => serverStopped

def takeCommand (s : Session σ) : Option ClientCommand × Session σ :=
  match s.commands with
  | [] => (none, s)
  | c :: rest => (some c, { s with commands := rest })

def takeEvent (s : Session σ) : Option ServerEvent × Session σ :=
  match s.client.server with
  | none => (none, s)
  | some i => onConnection i none (fun c =>
      match c.events with
      | [] => (none, c)
      | e :: rest => (some e, { c with events := rest })) s

/-- Does one piece of work if there is any: commands come before events. -/
def handleQueued : Task σ Bool := do
  match ← .modifyGet takeCommand with
  | some c => do
    handleCommand c
    pure true
  | none =>
    match ← .modifyGet takeEvent with
    | some e => do
      handleEvent e
      pure true
    | none => pure false

/-- Does all work that is there, but no more than a number of pieces. Answers how many. -/
def processPending : Nat → Task σ Nat
  | 0 => pure 0
  | limit + 1 => do
    if ← handleQueued then pure ((← processPending limit) + 1) else pure 0

/-- Waits for work until a time, and does one piece. Answers whether there was any. -/
def processNext (deadline : Option Nat) : Task σ Bool := do
  .await (.work deadline)
  handleQueued

/-- Does one piece of work, and goes on until the time has come to stop the server. -/
def serve (deadline : Option Nat) : Task σ (Option Job) := do
  .await (.work deadline)
  let clock := (← .get).clock
  if deadline.any (· ≤ clock) then
    stop
    pure none
  else
    let _ ← handleQueued
    pure (some (.serve deadline))

def withoutHistory (s : Session σ) : Session σ :=
  { s with client := { s.client with restart := s.client.restart.reset } }

/-- Carries out a command of the user. -/
def execute (c : Command) (active : Option Url) : Task σ (Except ClientError Unit) :=
  match c with
  | .migrateSettings => do
    let outcome ← migrateNow active
    pure (if outcome = .failed then .error .migration else .ok ())
  | .restart => do
    stop
    .modify withoutHistory
    start
  | .showOutput => do
    showOutput
    pure (.ok ())

/-- What the jobs of a client do, with a handler for the requests of the server. -/
def runJob (handler : String → Json → Task σ (Except Protocol.Error Json)) :
    Job → Task σ (Option Job)
  | .writer i => writer i
  | .reader i => reader i
  | .answer i id method params => do
    answer handler i id method params
    pure none
  | .announce m action => do
    announce m action
    pure none
  | .serve deadline => serve deadline

/-- The rules of a client's tasks. -/
def rules : Rules (Session σ) Wait Job where
  ready := ready
  run := runJob handle

end LinterClient.Session
