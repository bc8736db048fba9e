import LinterClient.FileSystem.Basic

/-!
Sequences of file system calls.

A script decides by what it sees and by which calls failed. Between two calls the process may stop, and
each call may fail.
-/

namespace LinterClient.FileSystem

inductive Call where
  | createDirectories (p : FilePath)
  | append (p : FilePath) (bytes : List UInt8)
  | setMode (p : FilePath) (mode : Nat)
  | remove (p : FilePath)
  | rename (source target : FilePath)
  /-- Waits until a file is on the disk. -/
  | sync (p : FilePath)
deriving DecidableEq

def Call.perform (fs : FileSystem) : Call → Except IoError FileSystem
  | .createDirectories p => fs.createDirectories p
  | .append p bytes => fs.append p bytes
  | .setMode p mode => fs.setMode p mode
  | .remove p => fs.remove p
  | .rename source target => fs.rename source target
  | .sync _ => .ok fs

/-- A name in a directory that nothing has yet, and that leads to none of some paths. -/
def unused? (fs : FileSystem) (dir : FilePath) (others : List FilePath) : Option FilePath :=
  ((List.range (fs.entries.length + others.length + 1)).map fun n =>
    dir.join (.ofString (".tmp" ++ toString n))).find? fun p =>
      !fs.exists? p && !others.any (·.location = p.location)

/-- Makes an empty file under such a name. -/
def createTemporary (fs : FileSystem) (dir : FilePath) (others : List FilePath) :
    Except IoError (FilePath × FileSystem) :=
  match fs.unused? dir others with
  | some p => do .ok (p, ← fs.createFile p)
  | none => .error .alreadyExists

/-- A sequence of calls with a result. -/
inductive Script (α : Type) where
  | done (value : α)
  /-- Asks whether something stands at a path. -/
  | check (p : FilePath) (next : Bool → Script α)
  | read (p : FilePath) (next : Except IoError String → Script α)
  /-- Makes an empty file with a name of its own. Names are random, so that of a path that is written
  to does not come up. -/
  | temporary (dir : FilePath) (others : List FilePath) (next : Except IoError FilePath → Script α)
  | call (c : Call) (next : Except IoError Unit → Script α)

namespace Script

def bind (s : Script α) (f : α → Script β) : Script β :=
  match s with
  | .done a => f a
  | .check p next => .check p fun seen => bind (next seen) f
  | .read p next => .read p fun text => bind (next text) f
  | .temporary dir others next => .temporary dir others fun r => bind (next r) f
  | .call c next => .call c fun r => bind (next r) f

instance : Monad Script where
  pure := .done
  bind := bind

/-- The script carried out to its end, where calls fail only if the file system refuses them. -/
def run (fs : FileSystem) : Script α → α × FileSystem
  | .done a => (a, fs)
  | .check p next => run fs (next (fs.exists? p))
  | .read p next => run fs (next (fs.readText p))
  | .temporary dir others next =>
    match fs.createTemporary dir others with
    | .ok (p, fs) => run fs (next (.ok p))
    | .error e => run fs (next (.error e))
  | .call c next =>
    match c.perform fs with
    | .ok fs => run fs (next (.ok ()))
    | .error e => run fs (next (.error e))

/-- Whether something stands at a path. -/
def exists? (p : FilePath) : Script Bool :=
  .check p .done

def readText (p : FilePath) : Script (Except IoError String) :=
  .read p .done

def createTemporary (dir : FilePath) (others : List FilePath) : ExceptT IoError Script FilePath :=
  .mk (.temporary dir others .done)

/-- A call whose failure the script looks at. -/
def attempt (c : Call) : Script (Except IoError Unit) :=
  .call c .done

/-- A call whose failure ends the script. -/
def require (c : Call) : ExceptT IoError Script Unit :=
  .mk (attempt c)

/-- A call whose failure does not matter. -/
def ignore (c : Call) : Script Unit :=
  .call c fun _ => .done ()

end Script

end LinterClient.FileSystem
