import LinterClient.CommandLine.Actions
import LinterClient.Simulation.Surroundings

/-!
Carrying out a command line on a simulated machine.
-/

namespace LinterClient.Simulation

/-- The shell is the only program there. -/
private def canLaunch (l : Launch) : Except LaunchError Unit :=
  if l.runtime = "sh" ∨ l.runtime = "/bin/sh" then .ok () else .error (.noRuntime l.runtime)

/-- More waits than a client ever comes to. -/
private def manyWaits : Nat := 1000000000

def execute (c : CommandLine) (place : CommandLine.Place) (files : FileSystem) :
    CommandLine.Ending Machine :=
  let (memento, files) := c.memento place files
  let new := Machine.new (.files (c.workspace place) place.globalSettings) files []
  let m := { new with
    directory := place.directory
    terminal := some (c.terminal (some place.logFile)) }
  c.execute place (surroundings Session.handle) manyWaits
    (Session.new m memento (c.launch? place m) canLaunch 1)

end LinterClient.Simulation
