import LinterClient.Session.State

/-!
What tasks show to the user, and what they log.
-/

namespace LinterClient.Session

variable {σ : Type}

def writeLog (level : LogLevel) (text : String) : Task σ Unit :=
  .modify (addLog level text)

def openMessage (m : Window.Message) (s : Session σ) : Nat × Session σ :=
  let w := s.window
  (w.nextMessage, { s with window := { w with
    shown := w.shown ++ [.message m]
    nextMessage := w.nextMessage + 1
    unanswered := w.unanswered ++ [(w.nextMessage, m)] } })

def takeAnswer (message : Nat) (s : Session σ) : Option String × Session σ :=
  let w := s.window
  ((w.answers.lookup message).join,
    { s with window := { w with answers := w.answers.filter (·.1 ≠ message) } })

/-- The user answers a message that is shown, or dismisses it. -/
def answerMessage (message : Nat) (answer : Option String) (s : Session σ) : Session σ :=
  let w := s.window
  if w.unanswered.any (·.1 = message) then
    { s with window := { w with
      unanswered := w.unanswered.filter (·.1 ≠ message)
      answers := w.answers ++ [(message, answer)] } }
  else s

def openModals (s : Session σ) : List (Nat × Window.Message) :=
  s.window.unanswered.filter (·.2.modal)

/-- Shows a message and waits for the chosen action; there is none if it is dismissed. -/
def showMessage (m : Window.Message) : Task σ (Option String) := do
  let id ← .modifyGet (openMessage m)
  .await (.answer id)
  .modifyGet (takeAnswer id)

def push (e : Window.Event) (s : Session σ) : Session σ :=
  { s with window := { s.window with shown := s.window.shown ++ [e] } }

/-- Opens a link, and answers whether that was possible. -/
def openExternal (url : String) : Task σ Bool :=
  .modifyGet fun s => (s.window.canOpen, push (.external url) s)

def showOutput : Task σ Unit :=
  .modify (push .output)

def showStatus (view : Window.StatusView) : Task σ Unit :=
  .modify (push (.status view))

def announce (m : Window.Message) (action : String) : Task σ Unit := do
  if (← showMessage m) = some action then showOutput

/-- Shows such a message without waiting for its answer. -/
def announceLater (level : Window.Level) (text action : String) : Task σ Unit :=
  .start (.announce ⟨level, text, [action], false⟩ action)

def showOutputTitle : String := "Show output"

end LinterClient.Session
