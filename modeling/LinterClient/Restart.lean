/-!
Whether a server that stopped is started again.
-/

namespace LinterClient.Restart

/-- How often a server is restarted inside the window. -/
def maxRestarts : Nat := 4

def window : Nat := 3 * 60 * 1000

inductive Decision where
  | restart
  /-- The server ended itself on purpose. -/
  | exitCalled
  | giveUp
deriving DecidableEq

/-- The times of the restarts that may still count, oldest first. -/
structure Policy where
  restarts : List Nat
  exitCalled : Bool
deriving DecidableEq

namespace Policy

def new : Policy := ⟨[], false⟩

def noteExit (p : Policy) : Policy := { p with exitCalled := true }

/-- Forgets all that happened. -/
def reset (_ : Policy) : Policy := new

def onStopped (p : Policy) (now : Nat) : Decision × Policy :=
  if p.exitCalled then (.exitCalled, p)
  else
    let recent := p.restarts.dropWhile fun at_ => window < now - at_
    if maxRestarts ≤ recent.length then (.giveUp, { p with restarts := recent })
    else (.restart, { p with restarts := recent ++ [now] })

end Policy

end LinterClient.Restart
