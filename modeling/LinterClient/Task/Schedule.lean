import LinterClient.Task.System

/-!
Running tasks in the order in which they become ready.

Tasks that can go on stand in a queue. One that has to wait leaves it, and comes back to its end when its
wait is over. Time passes only when no task can go on. What surrounds the tasks, such as the user or a
server, acts after each of them ran.
-/

namespace LinterClient

/-- The rules of tasks, and what else changes their state. -/
structure Surroundings (State Wait Job : Type) extends Rules State Wait Job where
  /-- What happens at once after a task ran. -/
  react : State → State
  /-- What happens just before a wait that is over lets its task go on. -/
  before : Wait → State → State
  /-- When a wait is over in any case. -/
  deadline? : Wait → Option Nat
  /-- When something next happens by itself. -/
  nextEvent? : State → Option Nat
  /-- What happens by a point in time. -/
  pass : Nat → State → State

/-- The tasks that can go on, in order, and those that wait. -/
structure Schedule (State Wait Job : Type) where
  state : State
  queue : List (Program State Wait Job (Option Job))
  waiting : List (Wait × Program State Wait Job (Option Job))

namespace Schedule

variable {State Wait Job : Type} (env : Surroundings State Wait Job)

/-- A state without tasks. -/
def ofState (s : State) : Schedule State Wait Job := ⟨s, [], []⟩

def change (f : State → State) (s : Schedule State Wait Job) : Schedule State Wait Job :=
  { s with state := f s.state }

/-- Puts a task at the end of the queue. -/
def add (p : Program State Wait Job (Option Job)) (s : Schedule State Wait Job) :
    Schedule State Wait Job :=
  { s with queue := s.queue ++ [p] }

/-- Runs a program until it has to wait, at most through a number of waits. -/
def poll : Nat → Program State Wait Job α → Schedule State Wait Job →
    Program.Pause State Wait Job α × Schedule State Wait Job
  | limit, p, s =>
    let (pause, state, jobs) := p.advance s.state
    let s := { s with state := env.react state, queue := s.queue ++ jobs.map env.run }
    match limit, pause with
    | limit + 1, .waiting on next =>
      if env.ready on s.state then poll limit next (s.change (env.before on)) else (pause, s)
    | _, _ => (pause, s)

/-- Runs a task until it has to wait or ends, through the jobs that it goes on with. -/
def runTask : Nat → Program State Wait Job (Option Job) → Schedule State Wait Job →
    Schedule State Wait Job
  | 0, p, s => s.add p
  | limit + 1, p, s =>
    match s.poll env limit p with
    | (.waiting on next, s) => { s with waiting := s.waiting ++ [(on, next)] }
    | (.done none, s) => s
    | (.done (some job), s) => runTask limit (env.run job) s

/-- Moves the tasks whose waits are over to the queue. -/
def wake (s : Schedule State Wait Job) : Schedule State Wait Job :=
  let (ready, waiting) := s.waiting.partition fun (on, _) => env.ready on s.state
  { s with waiting, queue := s.queue ++ ready.map fun (on, next) => .wait on next }

/-- Lets the tasks run until none can go on. -/
def drain : Nat → Schedule State Wait Job → Schedule State Wait Job
  | 0, s => s
  | limit + 1, s =>
    let s := s.wake env
    match s.queue with
    | [] => s
    | p :: rest => drain limit (runTask env limit p { s with queue := rest })

/-- When something next happens without a task, while something is also waited for. -/
def nextTime? (on : List Wait) (s : Schedule State Wait Job) : Option Nat :=
  ((on ++ s.waiting.map (·.1)).filterMap env.deadline? ++ (env.nextEvent? s.state).toList).min?

/-- Runs a program to its end, with the tasks that it starts. Answers nothing if it waits for ever. -/
def run : Nat → Program State Wait Job α → Schedule State Wait Job →
    Option α × Schedule State Wait Job
  | 0, _, s => (none, s)
  | limit + 1, p, s =>
    match s.poll env limit p with
    | (.done a, s) => (some a, s)
    | (.waiting on next, s) =>
      let s := s.drain env limit
      if env.ready on s.state then run limit (.wait on next) s
      else match s.nextTime? env [on] with
        | none => (none, s)
        | some t => run limit (.wait on next) (s.change (env.pass t))

/-- Carries out a job, and those that it goes on with. -/
def runJob : Nat → Job → Schedule State Wait Job → Schedule State Wait Job
  | 0, _, s => s
  | limit + 1, job, s =>
    match s.run env limit (env.run job) with
    | (some (some job), s) => runJob limit job s
    | (_, s) => s

end Schedule

end LinterClient
