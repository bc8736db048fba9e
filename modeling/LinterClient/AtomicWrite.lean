import LinterClient.FileSystem.Script

/-!
Writing a file so that its old or its new content is always there as a whole.

The new content goes to a temporary file beside the target, which is then moved onto it. Where that
fails although the target exists, the target is first moved to a backup, which is moved back if the
second attempt fails as well. A backup without its file is left behind only if the process stopped in
between; it is restored before the file is next used.
-/

namespace LinterClient.AtomicWrite

open FileSystem (Script Call)
open FileSystem.Script

structure Options where
  /-- Wait until the content is on the disk. -/
  sync : Bool
  /-- Let only the owner read and write the file. -/
  ownerOnly : Bool
  /-- Make missing directories above the file. -/
  createParents : Bool
deriving DecidableEq

def Options.default : Options := ⟨true, false, true⟩

/-- Where the old content is kept while the file is replaced. -/
def backup (p : FilePath) : FilePath := p.withExtension "bak"

def directory (p : FilePath) : FilePath :=
  match p.parent? with
  | some d => if d.bytes = [] then .ofString "." else d
  | none => .ofString "."

def recover (p : FilePath) : Script Unit := do
  if !(← exists? p) && (← exists? (backup p)) then
    ignore (.rename (backup p) p)

def setMode (o : Options) (p : FilePath) : ExceptT IoError Script Unit :=
  if o.ownerOnly then require (.setMode p 0o600) else pure ()

/-- Moves the temporary file onto its target, by way of the backup if need be. -/
def replace (temp p : FilePath) : Script (Except IoError Unit) := do
  match ← attempt (.rename temp p) with
  | .ok () => pure (.ok ())
  | .error first =>
    if !(← exists? p) then pure (.error first)
    else
      ignore (.remove (backup p))
      match ← attempt (.rename p (backup p)) with
      | .error e => pure (.error e)
      | .ok () =>
        match ← attempt (.rename temp p) with
        | .error e =>
          ignore (.rename (backup p) p)
          pure (.error e)
        | .ok () =>
          ignore (.remove (backup p))
          pure (.ok ())

def fill (temp p : FilePath) (bytes : List UInt8) (o : Options) :
    ExceptT IoError Script Unit := do
  setMode o temp
  require (.append temp bytes)
  if o.sync then require (.sync temp)
  ExceptT.mk (replace temp p)

/-- Writes a file. A temporary file that was not moved is removed. -/
def write (p : FilePath) (bytes : List UInt8) (o : Options) : Script (Except IoError Unit) :=
  ExceptT.run do
    let dir := directory p
    if o.createParents then require (.createDirectories dir)
    let temp ← createTemporary dir [p, backup p]
    match ← ExceptT.lift (fill temp p bytes o).run with
    | .error e => do
      ExceptT.lift (ignore (.remove temp))
      throw e
    | .ok () => setMode o p

end LinterClient.AtomicWrite
