import LinterClient.Proofs.Task.Crew
import LinterClient.Session.Serving

/-!
Calls that ask for settings or migrate them, in one session.

Any number of calls share the session, each of them a task. Besides them the user answers messages,
settings are changed from outside, and the rest of the client goes on with its work.
-/

namespace LinterClient.Session

/-- What can be asked for. The last kind tells the user something, as a failed migration does in a task
of its own. -/
inductive Call where
  | settings (uri : Url)
  | configuration (items : List Protocol.ConfigurationItem)
  | migrate (resource : Option Url)
  | announce (level : Window.Level) (text action : String)

inductive Answer where
  | record (r : Settings.Record)
  | values (l : List Json)
  | outcome (o : MigrationOutcome)
  | told

variable {σ ι : Type}

/-- How often the user was asked whether to migrate. -/
def asked (s : Session σ) : Nat :=
  s.window.shown.count (.message question)

/-- How many changes of the configuration the client's own task has still to react to. -/
def pendingChanges (s : Session σ) : Nat :=
  s.commands.count .configurationChanged

/-- What others do who neither migrate, nor ask about it, nor answer messages, nor say that the
configuration changed. They may change the store. -/
structure Aside (s s' : Session σ) : Prop where
  migration : s'.migration = s.migration
  unanswered : s'.window.unanswered = s.window.unanswered
  answers : s'.window.answers = s.window.answers
  nextMessage : s'.window.nextMessage = s.window.nextMessage
  asked : s'.asked = s.asked
  pendingChanges : s'.pendingChanges ≤ s.pendingChanges

/-- What happens next: a call goes on, the user answers a message, the client is told that the
configuration changed, or others do something. -/
inductive Move (σ ι : Type) where
  | go (i : ι)
  | answer (message : Nat) (answer : Option String)
  | changed
  | aside (f : Session σ → Session σ) (keeps : ∀ s, Aside s (f s))

section Crew

variable [Store σ]

def callTask : Call → Task σ Answer
  | .settings uri => do pure (.record (← settingsFor uri))
  | .configuration items => do pure (.values (← configuration items))
  | .migrate resource => do pure (.outcome (← migrateNow resource))
  | .announce level text action => do
    announce ⟨level, text, [action], false⟩ action
    pure .told

abbrev Calls (σ ι : Type) := Crew ι (Session σ) Wait Job Answer

/-- A session with all the calls that are ever made in it. A call begins when it first goes on. -/
def withCalls (s : Session σ) (calls : ι → Call) : Calls σ ι :=
  ⟨s, fun i => callTask (calls i)⟩

end Crew

namespace Calls

variable [DecidableEq ι]

def move (crew : Calls σ ι) : Move σ ι → Calls σ ι
  | .go i => crew.go ready i
  | .answer message answer => { crew with state := crew.state.answerMessage message answer }
  | .changed => { crew with state := configurationChanged crew.state }
  | .aside f _ => { crew with state := f crew.state }

def after (crew : Calls σ ι) (moves : List (Move σ ι)) : Calls σ ι :=
  moves.foldl move crew

end Calls

/-- Whether a task waits for a write of a migration. Migrations do not write the setting that turns the
question off. -/
def migrates : Wait → Bool
  | .write w => w.key ≠ promptsKey
  | _ => false

/-- Whether some migration is about to make one of its attempts to write. -/
def Calls.Underway (crew : Calls σ ι) : Prop :=
  ∃ i, (crew.tasks i).waitsFor?.any migrates = true

end LinterClient.Session
