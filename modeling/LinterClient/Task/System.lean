import LinterClient.Task.Program

/-!
Several tasks over one state.

A step lets one task run from its wait to its next one. Which task is next is left open: what holds after
every sequence of steps holds for every schedule.
-/

namespace LinterClient

/-- When waits are over, and what jobs do. A job that ends may name another one that its task goes on
with. -/
structure Rules (State Wait Job : Type) where
  ready : Wait → State → Bool
  run : Job → Program State Wait Job (Option Job)

/-- A state and the tasks that share it. A task that ended has no program. -/
structure System (State Wait Job : Type) where
  state : State
  tasks : List (Program State Wait Job (Option Job))

namespace System

variable {State Wait Job : Type}

/-- Whether a task can go on. -/
def enabled (r : Rules State Wait Job) (s : State) : Program State Wait Job α → Bool
  | .wait on _ => r.ready on s
  | _ => true

/-- What a task runs when it goes on. -/
def resume : Program State Wait Job α → Program State Wait Job α
  | .wait _ next => next
  | p => p

/-- A task after it went on: the program that is left, unless it ended. -/
def remaining (r : Rules State Wait Job) :
    Program.Pause State Wait Job (Option Job) → List (Program State Wait Job (Option Job))
  | .done none => []
  | .done (some job) => [r.run job]
  | .waiting on next => [.wait on next]

/-- Lets the task at an index run, if it can go on. -/
def step (r : Rules State Wait Job) (i : Nat) (sys : System State Wait Job) :
    Option (System State Wait Job) :=
  match sys.tasks[i]? with
  | none => none
  | some p =>
    if enabled r sys.state p then
      let (pause, state, jobs) := (resume p).advance sys.state
      some ⟨state, sys.tasks.take i ++ remaining r pause ++ sys.tasks.drop (i + 1) ++ jobs.map r.run⟩
    else none

/-- One task of a system goes on. -/
def Steps (r : Rules State Wait Job) (before after : System State Wait Job) : Prop :=
  ∃ i, before.step r i = some after

end System

end LinterClient
