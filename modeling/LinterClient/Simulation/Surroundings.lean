import LinterClient.Simulation.Servers
import LinterClient.Task.Schedule

/-!
What surrounds the tasks of a client on a simulated machine: the user, the servers, others who change
settings, and time.
-/

namespace LinterClient.Simulation

/-- How long the user takes for a modal message, in milliseconds. -/
def modalDelay : Nat := 10

/-- The user sees a message. Without actions it is dismissed; a modal one is answered later. -/
def see (s : State) (shown : Nat × Window.Message) : State :=
  let (id, message) := shown
  let asked := !message.actions.isEmpty
  let answer := if asked then s.store.answers.head?.join else none
  let s := onMachine (fun m =>
    { m with seen := id + 1, answers := if asked then m.answers.tail else m.answers }) s
  if message.modal then
    onMachine (fun m => { m with due := m.due ++ [(s.clock + modalDelay, id, answer)] }) s
  else s.answerMessage id answer

private def written (s : State) : Nat :=
  (s.connections.flatMap (·.written)).length

/-- What the surroundings do at once after a task ran. -/
def react (s : State) : State :=
  let s := onMachine (fun m => { m with mostModals := max m.mostModals s.openModals.length }) s
  let s := match s.store.terminal with
    | some t => t.answerAll s
    | none => (s.window.unanswered.filter fun (m : Nat × Window.Message) => s.store.seen ≤ m.1).foldl see s
  let s := { (s.ran.map ("ran " ++ ·)).foldl (fun s text => note text s) s with ran := [] }
  Process.followAll (s.store.scripts.foldl (serve (written s)) s)

private def interrupt (s : State) (i : Interruption) : State :=
  let s := match i.write with
    | some w => onMachine (fun m => (m.put w).2) s
    | none => s
  match i.defer with
  | none => s
  | some name =>
    let (kept, s) := Session.defer (.named name) s
    note ("deferred " ++ name ++ ": " ++ toString kept) s

/-- What others do just before a task goes on. -/
def before (w : Wait) (s : State) : State :=
  match w with
  | .write w =>
    let (mine, rest) := s.store.interruptions.partition (·.key = w.key)
    mine.foldl interrupt (onMachine (fun m => { m with interruptions := rest }) s)
  | _ => s

/-- Time passes, and answers are given that are due. -/
def pass (t : Nat) (s : State) : State :=
  let (now, later) := s.store.due.partition (·.1 ≤ t)
  now.foldl (fun s (_, id, answer) => s.answerMessage id answer)
    (onMachine (fun m => { m with due := later }) { s with clock := max s.clock t })

/-- The surroundings of a client on such a machine, with a handler for the requests of servers. -/
def surroundings (handler : String → Json → Task Machine (Except Protocol.Error Json)) :
    Surroundings State Wait Job where
  ready := Session.ready
  run := Session.runJob handler
  react := react
  before := before
  deadline? := Wait.deadline?
  nextEvent? s := (s.store.due.map (·.1)).min?
  pass := pass

end LinterClient.Simulation
