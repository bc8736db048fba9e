import LinterClient.Simulation.Machine

/-!
What the servers of a simulated machine do.

A server without a process reacts to methods. A process follows the steps of its script, and keeps a
record of the messages that it reads.
-/

namespace LinterClient.Simulation

open Json (Members)

/-- The server of a connection writes, if it is read. -/
def serverWrites (i : Nat) (bytes : List UInt8) : State → State :=
  Session.changeConnection i fun c =>
    if c.isRead then { c with received := c.received ++ bytes } else c

def closeOutput (i : Nat) : State → State :=
  Session.changeConnection i fun c => { c with outputClosed := true }

def closeInput (i : Nat) : State → State :=
  Session.changeConnection i fun c => { c with inputClosed := true }

/-- What a server does for a message that it received. -/
def follow (i : Nat) (message : Json) (r : Reaction) (s : State) : State :=
  let s := if r.close then closeOutput i s else s
  let id := (message.get? "id").getD .null
  let answers := r.answers.map fun member =>
    Json.ofMembers [("jsonrpc", .str "2.0"), ("id", id), member]
  serverWrites i (r.raw ++ (r.messages ++ answers).flatMap Framing.encode) s

private def nextWritten (c : Connection) : Option (Json × List UInt8) :=
  if c.inputClosed then none
  else match Framing.read false c.written with
    | .message value rest => some (value, rest)
    | _ => none

/-- A server reads what was written to it, at most a number of messages. -/
def serve : Nat → State → Script → State
  | 0, s, _ => s
  | limit + 1, s, script =>
    let i := script.connection
    match (s.connection? i).bind nextWritten with
    | none => s
    | some (message, rest) =>
      let s := Session.changeConnection i (fun c => { c with written := rest }) s
      let s := onMachine (fun m => { m with scripts := m.scripts.map fun t =>
        if t.connection = i then { t with received := t.received ++ [message] } else t }) s
      let reaction := ((message.get? "method").bind (·.asString?)).bind fun name =>
        script.reactions.lookup name
      serve limit (match reaction with
        | some r => follow i message r s
        | none => s) script

namespace Process

private def expand (p : Process) (w : ServerScript.Word) : String :=
  String.join (w.map fun piece => match piece with
    | .text s => s
    | .variable name => (p.values.lookup name).getD ""
    | .output _ => "")

private def path (m : Machine) (name : String) : FilePath :=
  m.directory.absolute (.ofString name)

private def makeFile (p : FilePath) (fs : FileSystem) : FileSystem :=
  (fs.createFile p).toOption.getD fs

private def addLine (p : FilePath) (line : String) (fs : FileSystem) : FileSystem :=
  let fs := makeFile p fs
  (fs.append p (Utf8.encode (line ++ "\n"))).toOption.getD fs

private def onFiles (f : Machine → FileSystem → FileSystem) : State → State :=
  onMachine fun m => { m with files := f m m.files }

/-- A message with the number of the client's process hidden. -/
private def masked (message : String) : String :=
  let mark := "\"processId\":"
  match message.splitOn mark with
  | front :: behind :: rest =>
    mark.intercalate
      ((front ++ mark ++ "\"<pid>\"" ++ String.ofList (behind.toList.dropWhile Char.isDigit)) :: rest)
  | _ => message

private def setVariable (name value : String) (p : Process) : Process :=
  { p with values := (name, value) :: p.values }

private def lastMember (name message : String) : String :=
  match (message.splitOn ("\"" ++ name ++ "\":\"")).reverse with
  | [] | [_] => message
  | s :: _ => String.ofList (s.toList.takeWhile (· ≠ '"'))

private def record (p : Process) (message : String) : State → State :=
  onFiles fun m fs =>
    addLine (path m ((p.values.lookup "LOG").getD "frames.txt")) (masked message) fs

private def ended (p : Process) : State → State :=
  Session.changeConnection p.connection fun c =>
    { c with process := .exited, outputClosed := true, inputClosed := true }

/-- Reads a message. Without one the process waits, or ends if no more can come. -/
private def read (p : Process) (s : State) : Option (Option String × State) :=
  match s.connection? p.connection with
  | none => some (none, s)
  | some c =>
    match nextWritten c with
    | some (message, rest) =>
      let s := Session.changeConnection p.connection (fun c => { c with written := rest }) s
      some (some message.text, p.record message.text s)
    | none => if c.writing then none else some (none, s)

/-- Follows the script until the process waits or ends, at most through a number of steps. -/
def follow : Nat → State → Process → State × Option Process
  | 0, s, p => (s, some p)
  | limit + 1, s, p =>
    match p.steps with
    | [] | .exit :: _ => (p.ended s, none)
    | .await text :: rest =>
      match p.read s with
      | none => (s, some p)
      | some (none, s) => (p.ended s, none)
      | some (some message, s) =>
        let p := { p with last := message }
        let found := (message.splitOn (p.expand text)).length ≠ 1
        follow limit s (if found then { p with steps := rest } else p)
    | .send message :: rest =>
      let text := p.expand message
      let bytes := Utf8.encode ("Content-Length: " ++ toString text.utf8ByteSize ++ "\r\n\r\n" ++ text)
      follow limit (serverWrites p.connection bytes s) { p with steps := rest }
    | .write text :: rest =>
      let bytes := Utf8.encode (p.expand text)
      follow limit (serverWrites p.connection bytes s) { p with steps := rest }
    | .assign name value :: rest =>
      follow limit s { p.setVariable name (p.expand value) with steps := rest }
    | .keep name member :: rest =>
      follow limit s { p.setVariable name (lastMember member p.last) with steps := rest }
    | .touch file :: rest =>
      follow limit (onFiles (fun m => makeFile (path m (p.expand file))) s) { p with steps := rest }
    | .ifExists file yes no :: rest =>
      let found := s.store.files.exists? (path s.store (p.expand file))
      follow limit s { p with steps := (if found then yes else no) ++ rest }

/-- How many steps a process may do at once. -/
def patience : Nat := 10000

/-- The process that a launch starts: the script is its module. -/
def launch (s : State) (connection : Nat) (l : Launch) : Process :=
  let text := s.store.files.readText (path s.store l.serverModule)
  ⟨connection, ServerScript.parse (text.toOption.getD ""), "", []⟩

/-- The processes that were started since the machine was last looked at. -/
def new (s : State) : List Process :=
  (s.connections.zipIdx.drop s.store.started).filterMap fun (c, i) =>
    match c.process with
    | .running l => some (launch s i l)
    | _ => none

def followAll (s : State) : State :=
  let all := s.store.processes ++ new s
  let (s, left) := all.foldl (fun (acc : State × List Process) p =>
    let (s, p) := follow patience acc.1 p
    (s, acc.2 ++ p.toList)) (s, [])
  onMachine (fun m => { m with processes := left, started := s.connections.length }) s

end Process

end LinterClient.Simulation
