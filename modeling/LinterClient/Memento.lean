import LinterClient.AtomicWrite
import LinterClient.Json.Parser
import LinterClient.Json.Printer
import LinterClient.Store.Basic

/-!
Values that outlive the process, such as which notices were shown.

They are kept as one JSON file. Without a path they are kept in memory only.
-/

namespace LinterClient

open Json (Members)

structure Memento where
  path : Option FilePath
  values : Members
deriving DecidableEq

namespace Memento

def inMemory : Memento := ⟨none, []⟩

/-- The values in a text; one that is no object of values counts as empty. -/
def parse (text : String) : Members :=
  match Json.parse text with
  | some (.obj m) => Members.sorted m
  | _ => []

/-- Reads a memento. A missing file starts empty, after an interrupted write was undone. -/
def load (fs : FileSystem) (p : FilePath) : Except StoreError Memento × FileSystem :=
  let fs := ((AtomicWrite.recover p).run fs).2
  match fs.readText p with
  | .ok text => (.ok ⟨some p, parse text⟩, fs)
  | .error .notFound => (.ok ⟨some p, []⟩, fs)
  | .error e => (.error (.read p.text e), fs)

def get? (m : Memento) (key : String) : Option Json :=
  Members.get? m.values key

/-- Sets a value; `null` removes it. -/
def set (m : Memento) (key : String) (value : Json) : Memento :=
  match value with
  | .null => { m with values := Members.erase m.values key }
  | v => { m with values := Members.insert key v m.values }

/-- The bytes of the file. -/
def content (m : Memento) : List UInt8 :=
  Utf8.encode (Json.obj m.values).pretty

def writeOptions : AtomicWrite.Options := { AtomicWrite.Options.default with ownerOnly := true }

/-- Writes the file, if there is one. -/
def save (m : Memento) (fs : FileSystem) : Except StoreError Unit × FileSystem :=
  match m.path with
  | none => (.ok (), fs)
  | some p =>
    match (AtomicWrite.write p m.content writeOptions).run fs with
    | (.ok (), fs) => (.ok (), fs)
    | (.error e, fs) => (.error (.write p.text e), fs)

end Memento

end LinterClient
