import LinterClient.FilePath
import LinterClient.IoError

/-!
A tree of files and directories, and the calls that change it.

A location is the list of names from the root. Every call either fails and changes nothing, or happens
as a whole.
-/

namespace LinterClient

/-- The names from the root to a file or directory. -/
abbrev Location := List (List UInt8)

/-- The location of a path; steps to a parent are folded, and a relative path starts at the root. -/
def FilePath.location (p : FilePath) : Location :=
  (FilePath.mk (FilePath.slash :: p.bytes)).normalize.components.map FilePath.Component.bytes

inductive Entry where
  | file (content : List UInt8) (mode : Nat)
  | directory
deriving DecidableEq

/-- What stands at each location below the root. The root itself is a directory. -/
structure FileSystem where
  entries : List (Location × Entry)
deriving DecidableEq

namespace FileSystem

def empty : FileSystem := ⟨[]⟩

instance : Inhabited FileSystem := ⟨empty⟩

/-- What stands at a location, whatever stands above it. -/
def entryAt? (fs : FileSystem) (l : Location) : Option Entry :=
  if l = [] then some .directory else fs.entries.lookup l

def insert (fs : FileSystem) (l : Location) (e : Entry) : FileSystem :=
  ⟨(l, e) :: fs.entries.filter (·.1 ≠ l)⟩

def erase (fs : FileSystem) (l : Location) : FileSystem :=
  ⟨fs.entries.filter (·.1 ≠ l)⟩

/-- The longest name that a directory takes. -/
def maxName : Nat := 255

def walk (fs : FileSystem) (above : Location) : Location → Except IoError Location
  | [] => .ok above
  | name :: rest =>
    match fs.entryAt? above with
    | some .directory =>
      if maxName < name.length then .error .nameTooLong else walk fs (above ++ [name]) rest
    | some (.file _ _) => .error .notADirectory
    | none => .error .notFound

/-- The location of a path, once every directory above it has been entered. Only a directory is reached
with a slash at the end. -/
def reach (fs : FileSystem) (p : FilePath) : Except IoError Location :=
  if p.bytes.contains 0 then .error .nulInPath
  else do
    let l ← walk fs [] p.location
    match fs.entryAt? l with
    | some (.file _ _) => if p.endsWithSlash then .error .notADirectory else .ok l
    | _ => .ok l

def stat (fs : FileSystem) (p : FilePath) : Except IoError Entry := do
  let l ← fs.reach p
  match fs.entryAt? l with
  | some e => .ok e
  | none => .error .notFound

def exists? (fs : FileSystem) (p : FilePath) : Bool :=
  (fs.stat p).toBool

def isDirectory (fs : FileSystem) (p : FilePath) : Bool :=
  match fs.stat p with
  | .ok .directory => true
  | _ => false

def read (fs : FileSystem) (p : FilePath) : Except IoError (List UInt8) := do
  match ← fs.stat p with
  | .file content _ => .ok content
  | .directory => .error .isADirectory

def readText (fs : FileSystem) (p : FilePath) : Except IoError String := do
  match Utf8.decode? (← fs.read p) with
  | some s => .ok s
  | none => .error .notText

/-- Makes a directory, and those above it that are missing. -/
def createDirectories (fs : FileSystem) (p : FilePath) : Except IoError FileSystem :=
  if p.bytes.contains 0 then .error .nulInPath else go fs [] p.location
where
  go (fs : FileSystem) (above : Location) : Location → Except IoError FileSystem
    | [] => .ok fs
    | name :: rest =>
      let here := above ++ [name]
      if maxName < name.length then .error .nameTooLong
      else match fs.entryAt? here with
        | some .directory => go fs here rest
        | some (.file _ _) => .error (if rest = [] then .alreadyExists else .notADirectory)
        | none => go (fs.insert here .directory) here rest

/-- Makes an empty file that only its owner can read and write. -/
def createFile (fs : FileSystem) (p : FilePath) : Except IoError FileSystem := do
  let l ← fs.reach p
  match fs.entryAt? l with
  | some _ => .error .alreadyExists
  | none => .ok (fs.insert l (.file [] 0o600))

def append (fs : FileSystem) (p : FilePath) (bytes : List UInt8) : Except IoError FileSystem := do
  let l ← fs.reach p
  match fs.entryAt? l with
  | some (.file content mode) => .ok (fs.insert l (.file (content ++ bytes) mode))
  | some .directory => .error .isADirectory
  | none => .error .notFound

def setMode (fs : FileSystem) (p : FilePath) (mode : Nat) : Except IoError FileSystem := do
  let l ← fs.reach p
  match fs.entryAt? l with
  | some (.file content _) => .ok (fs.insert l (.file content mode))
  | some .directory => .ok fs
  | none => .error .notFound

def remove (fs : FileSystem) (p : FilePath) : Except IoError FileSystem := do
  let l ← fs.reach p
  match fs.entryAt? l with
  | some (.file _ _) => .ok (fs.erase l)
  | some .directory => .error .isADirectory
  | none => .error .notFound

def hasChildren (fs : FileSystem) (l : Location) : Bool :=
  fs.entries.any fun (k, _) => k ≠ l && l.isPrefixOf k

/-- Everything at and below a location under its new name. -/
def moved (fs : FileSystem) (source target : Location) : FileSystem :=
  ⟨(fs.entries.filter (·.1 ≠ target)).map fun (k, e) =>
    if source.isPrefixOf k then (target ++ k.drop source.length, e) else (k, e)⟩

/-- Moves a file or directory. What stands at the target is replaced, if it is of the same kind and no
directory with content. -/
def rename (fs : FileSystem) (source target : FilePath) : Except IoError FileSystem := do
  let s ← fs.reach source
  let t ← fs.reach target
  match fs.entryAt? s, fs.entryAt? t with
  | none, _ => .error .notFound
  | some .directory, some (.file _ _) => .error .notADirectory
  | some (.file content mode), old =>
    if target.endsWithSlash then .error .notADirectory
    else if old = some .directory then .error .isADirectory
    else .ok ((fs.erase s).insert t (.file content mode))
  | some .directory, old =>
    if s = t then .ok fs
    else if s.isPrefixOf t then .error .invalidInput
    else if old.isSome ∧ hasChildren fs t then .error .directoryNotEmpty
    else .ok (moved fs s t)

end FileSystem

end LinterClient
