import LinterClient.Session.Windowing

/-!
The tasks of a connection, and requests over it.

One task writes what is in the outbox and one reads what the server writes. A request of the server is
answered by a task of its own, so that no answer keeps the reader back.
-/

namespace LinterClient.Session

open Json (Members)

variable {σ : Type}

def connect (requestTimeout : Nat) (process : ServerProcess) : Task σ Nat := do
  let i ← .modifyGet fun s =>
    (s.connections.length,
      { s with connections := s.connections ++ [.new requestTimeout process] })
  .start (.writer i)
  .start (.reader i)
  pure i

/-- Sends something once the outbox has room. Answers whether the connection still takes it. -/
def send (i : Nat) (o : Outgoing) : Task σ Bool := do
  .await (.room i)
  .modifyGet (onConnection i false (·.enqueue o))

/-- Writes one entry of the outbox. -/
def writer (i : Nat) : Task σ (Option Job) := do
  .await (.outgoing i)
  let goesOn ← .modifyGet (onConnection i false (·.writeNext))
  pure (if goesOn then some (.writer i) else none)

/-- The log level of a message of the server, by its type. -/
def logLevel : Option Json → LogLevel
  | some (.num (.int n _)) =>
    if n = 1 then .error else if n = 2 then .warn else if n = 3 then .info else .debug
  | _ => .debug

def logServerMessage (params : Json) : Task σ Unit :=
  writeLog (logLevel (params.get? "type")) (((params.get? "message").bind (·.asString?)).getD "")

def hasEnded (i : Nat) : Task σ Bool := do
  pure (((← .get).connection? i).all (·.abandoned))

def addEvent (i : Nat) (e : ServerEvent) : Task σ Unit := do
  .await (.eventRoom i)
  if !(← hasEnded i) then .modify (changeConnection i (·.addEvent e))

/-- Whether a request is only acknowledged: the client does not keep registrations. -/
def isRegistration (method : String) : Bool :=
  method = "client/registerCapability" || method = "client/unregisterCapability"

/-- Handles one message of the server. -/
def dispatch (i : Nat) (message : Json) : Task σ Unit :=
  match Protocol.Incoming.ofJson? message with
  | none => pure ()
  | some (.response id body) => .modify (changeConnection i (·.deliver id body))
  | some (.request id method params) =>
    if isRegistration method then do
      let _ ← send i (.frame (Protocol.response id (.ok .null)))
    else .start (.answer i id method params)
  | some (.notification method params) =>
    if method = "window/logMessage" then logServerMessage params
    else addEvent i (.notification method params)

/-- The server writes no more: all requests that wait are lost. -/
def stopReading (i : Nat) (reason : StopReason) : Task σ Unit := do
  .modify (changeConnection i fun c => { c with pending := [] })
  addEvent i (.stopped reason)
  .modify (changeConnection i fun c => { c with reading := false })

/-- Reads one message of the server. -/
def reader (i : Nat) : Task σ (Option Job) := do
  .await (.incoming i)
  match (← .get).connection? i with
  | none => pure none
  | some c =>
    if c.abandoned then pure none
    else match c.next with
      | .message value rest => do
        .modify (changeConnection i fun c => { c with received := rest })
        dispatch i value
        pure (some (.reader i))
      | .wait => pure (some (.reader i))
      | .finished => do
        stopReading i .exited
        pure none
      | .failed e => do
        stopReading i (.failed e)
        pure none

/-- Answers a request of the server with what a handler says. -/
def answer (handle : String → Json → Task σ (Except Protocol.Error Json)) (i : Nat) (id : Json)
    (method : String) (params : Json) : Task σ Unit := do
  let result ← handle method params
  let _ ← send i (.frame (Protocol.response id result))

private def timeoutOf (i : Nat) (s : Session σ) : Nat :=
  ((s.connection? i).map (·.requestTimeout)).getD 0

/-- Sends a request and waits for its response, but no longer than a time. -/
def requestWithin (i : Nat) (method : String) (params : Option Json) (patience : Nat) :
    Task σ (Except RequestError Json) := do
  let id ← .modifyGet (onConnection i 0 (·.newRequest))
  if !(← send i (.frame (Protocol.request id method params))) then
    .modify (changeConnection i (·.forget id))
    return .error (.notSent method)
  .await (.reply i id ((← .get).clock + patience))
  match ← .modifyGet (onConnection i .lost (·.takeReply id)) with
  | .waiting => return .error (.timedOut method patience)
  | .lost => return .error (.lost method)
  | .arrived body =>
    match Members.get? body "error" with
    | some e => return .error (.refused method ((e.get? "message").bind (·.asString?)))
    | none => return .ok ((Members.get? body "result").getD .null)

/-- Sends a request and waits for its response. -/
def request (i : Nat) (method : String) (params : Option Json) : Task σ (Except RequestError Json) := do
  requestWithin i method params (timeoutOf i (← .get))

def notify (i : Nat) (method : String) (params : Option Json) : Task σ (Except RequestError Unit) := do
  if ← send i (.frame (Protocol.notification method params)) then pure (.ok ())
  else pure (.error (.notSent method))

def notifyOpened (i : Nat) (d : OpenDocument) : Task σ (Except RequestError Unit) :=
  notify i "textDocument/didOpen"
    (some (Protocol.didOpenParams d.uri d.document.language d.version d.text))

def notifyClosed (i : Nat) (uri : Url) : Task σ (Except RequestError Unit) :=
  notify i "textDocument/didClose" (some (Protocol.didCloseParams uri))

/-- Tells the server to ask for settings again. -/
def notifyConfiguration (i : Nat) : Task σ (Except RequestError Unit) :=
  notify i "workspace/didChangeConfiguration" (some (.obj [("settings", .null)]))

def notifyFiles (i : Nat) (changes : List Protocol.FileEvent) : Task σ (Except RequestError Unit) :=
  notify i "workspace/didChangeWatchedFiles"
    (some (.obj [("changes", .arr (changes.map (·.toJson)))]))

/-- Why a connection is not ready to be used. -/
inductive HandshakeError where
  /-- The server did not introduce itself. -/
  | noReply (e : RequestError)
  /-- The server could not be told that it can start. -/
  | noStart (e : RequestError)
deriving DecidableEq

namespace HandshakeError

/-- What went wrong, the outermost description first. -/
def chain : HandshakeError → List String
  | .noReply e => ["initializing linter server", e.message]
  | .noStart e => [e.message]

end HandshakeError

/-- Introduces the client to the server, and answers the server's capabilities. -/
def handshake (i : Nat) (root : Option Url) (folders : List (String × Url)) :
    Task σ (Except HandshakeError Json) := do
  let params := Protocol.initializeParams (← .get).processId root folders
  match ← request i "initialize" (some params) with
  | .error e => return .error (.noReply e)
  | .ok result =>
    match ← notify i "initialized" (some (.obj [])) with
    | .error e => return .error (.noStart e)
    | .ok () => return .ok ((result.get? "capabilities").getD .null)

def isConnected (i : Nat) (s : Session σ) : Bool :=
  (s.connection? i).any (·.writing)

private def process (i : Nat) (s : Session σ) : ServerProcess :=
  ((s.connection? i).map (·.process)).getD .none

def endProcess (c : Connection) : Connection :=
  match c.process with
  | .running _ => { c with process := .exited, outputClosed := true }
  | _ => c

/-- Shuts the server down. It is told to exit only if it agrees in time. -/
def shutdown (i : Nat) : Task σ Unit := do
  let s ← .get
  if isConnected i s then
    match ← requestWithin i "shutdown" none (min (timeoutOf i s) Connection.shutdownTimeout) with
    | .ok _ =>
      let _ ← notify i "exit" none
    | .error _ => pure ()
  let _ ← send i .stop
  .await (.silence i)
  let s ← .get
  if process i s = .none then .modify (changeConnection i fun c => { c with abandoned := true })
  else
    .await (.exit i (s.clock + Connection.shutdownTimeout))
    .modify (changeConnection i endProcess)

end LinterClient.Session
