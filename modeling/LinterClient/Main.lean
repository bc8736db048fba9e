import LinterClient.CommandLine.Files

/-!
The program: reads the files that a command line needs, carries it out, and writes the files that
have changed.
-/

namespace LinterClient.Main

/-- What is printed when the arguments form no command line. -/
def usage : String :=
  "Usage: lintbridge [--answer <migrate|never|docs|not-now>] <COMMAND>\n\n" ++
  "Commands:\n" ++
  "  settings <FILE> [--workspace <DIR>]... [--language <ID>]\n" ++
  "  migrate <FILE> [--workspace <DIR>]... [--apply]\n" ++
  "  run <FILE>... --server <MODULE> [--workspace <DIR>]...\n"

/-- Adds what stands at a path to a tree of files. Nothing may stand there. -/
def readInto (files : FileSystem) (p : FilePath) : IO FileSystem := do
  try
    let bytes ← IO.FS.readBinFile p.text
    let added : Except IoError FileSystem := do
      let files ← files.createDirectories (AtomicWrite.directory p)
      (← files.createFile p).append p bytes.toList
    return added.toOption.getD files
  catch e =>
    match e with
    | .noFileOrDirectory .. => return files
    | .inappropriateType .. =>
      return (files.createDirectories p).toOption.getD files
    | e => throw e

def pathText (l : Location) : String :=
  (FilePath.ofComponents true l).text

/-- Writes the files that are new or have another content, each as a whole, and removes those that
are gone. -/
def writeChanges (before after : FileSystem) : IO Unit := do
  for (l, e) in after.entries do
    match e with
    | .file bytes _ =>
      if before.entryAt? l ≠ some e then
        let temporary := pathText l ++ ".tmp"
        IO.FS.createDirAll (pathText l.dropLast)
        IO.FS.writeBinFile temporary (ByteArray.mk bytes.toArray)
        IO.FS.rename temporary (pathText l)
    | .directory => pure ()
  for (l, e) in before.entries do
    match e, after.entryAt? l with
    | .file _ _, none => IO.FS.removeFile (pathText l)
    | _, _ => pure ()

private def isFile (path : String) : IO Bool := do
  try
    discard (IO.FS.Handle.mk path .read)
    return true
  catch _ => return false

/-- Whether a program is at its path, or in a directory where programs are looked for. -/
def isInstalled (program : String) : IO Bool := do
  if program.contains '/' then isFile program
  else
    let path ← IO.getEnv "PATH"
    ((path.getD "").splitOn ":").anyM fun directory => isFile (directory ++ "/" ++ program)

def carryOut (c : CommandLine) : IO UInt32 := do
  let directory ← IO.currentDir
  let home ← IO.getEnv "HOME"
  let place : CommandLine.Place := ⟨.ofString directory.toString, home.map .ofString⟩
  let before ← (c.neededFiles place).eraseDups.foldlM readInto .empty
  let runtimes ← (c.runtime? place before).toList.filterM isInstalled
  let ending := c.executeOnFiles place runtimes before
  writeChanges before ending.store.files
  IO.print ending.output.out
  IO.eprint ending.output.err
  return ending.code.toUInt32

end LinterClient.Main

def main (args : List String) : IO UInt32 :=
  match LinterClient.CommandLine.parse args with
  | some c => LinterClient.Main.carryOut c
  | none => do
    IO.eprint LinterClient.Main.usage
    return 2
