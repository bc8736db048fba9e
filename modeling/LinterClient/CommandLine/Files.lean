import LinterClient.CommandLine.Actions
import LinterClient.Store.Files

/-!
Carrying out a command line on a tree of files, where no server can be started.
-/

namespace LinterClient

instance : Host FileStore where
  readText s := s.files.readText
  saveMemento s memento :=
    let (result, files) := memento.save s.files
    (result, { s with files })

namespace CommandLine

/-- The files that are read as a whole and written: settings and the memento. -/
def keptFiles (c : CommandLine) (place : Place) : List FilePath :=
  let w := c.workspace place
  [place.globalSettings]
    ++ (w.settingsDir.map (·.join FileStore.workspaceFile)).toList
    ++ (w.folders.filterMap (·.path?)).map (·.join FileStore.settingsFile)
    ++ (place.memento.map place.directory.absolute).toList

def openedFiles (c : CommandLine) (place : Place) : List FilePath :=
  match c.action with
  | .run files _ => files.map place.directory.absolute
  | _ => []

/-- All files that have to be there to carry out a command line, with the backups of those that are
written. -/
def neededFiles (c : CommandLine) (place : Place) : List FilePath :=
  c.keptFiles place ++ (c.keptFiles place).map AtomicWrite.backup ++ c.openedFiles place

/-- Nothing happens but what the client does; the terminal answers messages at once. -/
private def alone (t : Terminal) : Surroundings (Session FileStore) Wait Job where
  ready := Session.ready
  run := Session.runJob Session.handle
  react := t.answerAll
  before _ s := s
  deadline? := Wait.deadline?
  nextEvent? _ := none
  pass t s := { s with clock := max s.clock t }

/-- Why no server is started, given the runtimes that are there. -/
private def refused (runtimes : List String) (l : Launch) : Except LaunchError Unit :=
  .error (if runtimes.contains l.runtime
    then .notSpawned l.runtime (.other "processes cannot be started")
    else .noRuntime l.runtime)

/-- More waits than a client without servers ever comes to. -/
private def manyWaits : Nat := 1000000000

private def store (c : CommandLine) (place : Place) (files : FileSystem) : FileStore :=
  ⟨c.workspace place, place.globalSettings, files⟩

/-- The runtime that a server would need. -/
def runtime? (c : CommandLine) (place : Place) (files : FileSystem) : Option String :=
  (c.launch? place (c.store place files)).map (·.runtime)

/-- Carries out a command line on files, given the runtimes that are there. -/
def executeOnFiles (c : CommandLine) (place : Place) (runtimes : List String) (files : FileSystem) :
    Ending FileStore :=
  let (memento, files) := c.memento place files
  let store := c.store place files
  c.execute place (alone (c.terminal (some place.logFile))) manyWaits
    (Session.new store memento (c.launch? place store) (refused runtimes) 1)

end CommandLine

end LinterClient
