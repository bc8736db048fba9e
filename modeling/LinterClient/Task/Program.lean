/-!
Programs of tasks that share a state.

A program reads and changes the shared state, waits, and starts jobs. Other tasks run only while it
waits, so what stands between two waits happens at once. What a program waits for is a value, and so is
a job: when a wait is over, and what a job does, is said elsewhere.
-/

namespace LinterClient

inductive Program (State Wait Job α : Type) where
  | done (value : α)
  | read (next : State → Program State Wait Job α)
  | change (f : State → State) (next : Program State Wait Job α)
  | wait (on : Wait) (next : Program State Wait Job α)
  | spawn (job : Job) (next : Program State Wait Job α)

namespace Program

variable {State Wait Job α β : Type}

def bind (p : Program State Wait Job α) (f : α → Program State Wait Job β) :
    Program State Wait Job β :=
  match p with
  | .done a => f a
  | .read next => .read fun s => bind (next s) f
  | .change g next => .change g (bind next f)
  | .wait on next => .wait on (bind next f)
  | .spawn job next => .spawn job (bind next f)

instance : Monad (Program State Wait Job) where
  pure := .done
  bind := bind

/-- The shared state as it is now. -/
def get : Program State Wait Job State :=
  .read .done

def modify (f : State → State) : Program State Wait Job Unit :=
  .change f (.done ())

/-- Changes the state, and answers from what it was. -/
def modifyGet (f : State → α × State) : Program State Wait Job α :=
  .read fun s => .change (fun _ => (f s).2) (.done (f s).1)

def await (on : Wait) : Program State Wait Job Unit :=
  .wait on (.done ())

def start (job : Job) : Program State Wait Job Unit :=
  .spawn job (.done ())

/-- Where a program stands when it lets others run. -/
inductive Pause (State Wait Job α : Type) where
  | done (value : α)
  | waiting (on : Wait) (next : Program State Wait Job α)

/-- Runs a program until it waits or ends; also answers the jobs that it started, in order. -/
def advance : Program State Wait Job α → State → Pause State Wait Job α × State × List Job
  | .done a, s => (.done a, s, [])
  | .read next, s => advance (next s) s
  | .change f next, s => advance next (f s)
  | .wait on next, s => (.waiting on next, s, [])
  | .spawn job next, s =>
    let (pause, s, jobs) := advance next s
    (pause, s, job :: jobs)

end Program

end LinterClient
