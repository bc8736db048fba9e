import LinterClient.Text.Utf8

/-!
File paths, by their text alone: components, joining, and lexical normalization.

A path is any sequence of bytes; a slash separates components. Nothing here looks at a file system.
-/

namespace LinterClient

structure FilePath where
  bytes : List UInt8
deriving DecidableEq, Inhabited

namespace FilePath

def slash : UInt8 := 0x2F

def dot : UInt8 := 0x2E

def ofString (s : String) : FilePath :=
  ⟨Utf8.encode s⟩

/-- The path as text; bytes that are not UTF-8 read as U+FFFD. -/
def text (p : FilePath) : String :=
  Utf8.lossy p.bytes

/-- The pieces between separators, empty ones included. -/
def splitBytes (separator : UInt8) : List UInt8 → List (List UInt8)
  | [] => [[]]
  | b :: rest =>
    if b = separator then [] :: splitBytes separator rest
    else match splitBytes separator rest with
      | [] => [[b]]
      | piece :: more => (b :: piece) :: more

def isAbsolute (p : FilePath) : Bool :=
  p.bytes.head? = some slash

def endsWithSlash (p : FilePath) : Bool :=
  p.bytes.getLast? = some slash

/-- One step of a path below its start. -/
inductive Component where
  | current
  | parent
  | normal (name : List UInt8)
deriving DecidableEq

/-- The steps of a path. Empty pieces and dots mean nothing, except a dot that starts a relative path. -/
def components (p : FilePath) : List Component :=
  let steps := (splitBytes slash p.bytes).zipIdx.filterMap fun (piece, index) =>
    if piece = [] then none
    else if piece = [dot] then
      if index = 0 then some .current else none
    else if piece = [dot, dot] then some .parent
    else some (.normal piece)
  steps

def Component.bytes : Component → List UInt8
  | .current => [dot]
  | .parent => [dot, dot]
  | .normal name => name

/-- A path from its steps; an absolute one starts with a separator. -/
def ofComponents (absolute : Bool) (steps : List (List UInt8)) : FilePath :=
  ⟨(if absolute then [slash] else []) ++ [slash].intercalate steps⟩

/-- A path below a directory; an absolute path stands for itself. -/
def join (directory path : FilePath) : FilePath :=
  if path.isAbsolute then path
  else if directory.bytes = [] ∨ directory.endsWithSlash then ⟨directory.bytes ++ path.bytes⟩
  else ⟨directory.bytes ++ slash :: path.bytes⟩

/-- The name of the last component, unless that is a step to the parent. -/
def fileName? (p : FilePath) : Option (List UInt8) :=
  match p.components.getLast? with
  | some (.normal name) => some name
  | _ => none

def parent? (p : FilePath) : Option FilePath :=
  match p.components.reverse with
  | [] => none
  | _ :: rest => some (ofComponents p.isAbsolute (rest.reverse.map Component.bytes))

/-- The name with what follows its last dot replaced; a dot at the start does not count. -/
def replaceExtension (name extension : List UInt8) : List UInt8 :=
  let reversed := name.reverse
  let stem := match reversed.dropWhile (· ≠ dot) with
    | [] => name
    | [_] => name
    | _ :: stem => stem.reverse
  stem ++ dot :: extension

/-- The path with another extension; a path without a file name stays as it is. -/
def withExtension (p : FilePath) (extension : String) : FilePath :=
  match p.fileName? with
  | none => p
  | some name =>
    let file := replaceExtension name (Utf8.encode extension)
    match p.parent? with
    | none => ⟨file⟩
    | some parent => if parent.bytes = [] then ⟨file⟩ else parent.join ⟨file⟩

/-- The part of the file name after its last dot. A dot at the start does not count. -/
def extension? (p : FilePath) : Option (List UInt8) :=
  p.fileName?.bind fun name =>
    match name.reverse.dropWhile (· ≠ dot) with
    | [] | [_] => none
    | _ :: _ => some (name.reverse.takeWhile (· ≠ dot)).reverse

/-- The path below a directory if it is not absolute itself. Dots and empty components are dropped, but
steps to a parent stay, and so does a slash at the end. Two slashes at the start stay two. -/
def absolute (directory p : FilePath) : FilePath :=
  let steps := (p.components.filter (· ≠ .current)).map Component.bytes
  let double := match p.bytes with
    | a :: b :: rest => a = slash && b = slash && rest.head? ≠ some slash
    | _ => false
  let start : FilePath :=
    if double then ⟨[slash, slash]⟩ else if p.isAbsolute then ⟨[slash]⟩ else directory
  let path := steps.foldl (fun acc name => acc.join ⟨name⟩) start
  if p.endsWithSlash && !path.endsWithSlash then ⟨path.bytes ++ [slash]⟩ else path

/-- One step of normalization: a step to the parent removes the step before it, is dropped at the
root, and is kept at the start of a relative path. -/
def foldStep (absolute : Bool) (seen : List Component) : Component → List Component
  | .current => seen
  | .normal name => .normal name :: seen
  | .parent =>
    match seen with
    | .normal _ :: rest => rest
    | _ => if absolute then seen else .parent :: seen

/-- The path without dots, each step to a parent folded with the step before it. -/
def normalize (p : FilePath) : FilePath :=
  let steps := p.components.foldl (foldStep p.isAbsolute) []
  ofComponents p.isAbsolute (steps.reverse.map Component.bytes)

end FilePath

end LinterClient
