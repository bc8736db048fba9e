import LinterClient.FilePath
import LinterClient.Migration.Choice

/-!
The command line: an action, the files and folders it is for, and the answer that the user gives in
advance to the question about migrations.
-/

namespace LinterClient

inductive CommandLine.Action where
  /-- Print the settings that the server would receive for a file. -/
  | settings (file : FilePath) (language : Option String)
  /-- Show which settings would be migrated for a file, or migrate them. -/
  | migrate (file : FilePath) (apply : Bool)
  /-- Start a server and lint files until the user interrupts. -/
  | run (files : List FilePath) (server : FilePath)
deriving DecidableEq

structure CommandLine where
  answer : Migration.Choice
  workspaces : List FilePath
  action : CommandLine.Action
deriving DecidableEq

namespace CommandLine

/-- The options and values that were given. -/
private structure Given where
  answer : Option String
  workspaces : List String
  language : Option String
  server : Option String
  apply : Bool
  files : List String

private def Given.empty : Given := ⟨none, [], none, none, false, []⟩

inductive Verb where
  | settings
  | migrate
  | run
deriving DecidableEq

private def verb? (s : String) : Option Verb :=
  if s = "settings" then some .settings
  else if s = "migrate" then some .migrate
  else if s = "run" then some .run
  else none

/-- An option that takes a value, or one that does not. -/
private inductive Flag where
  | answer
  | workspace
  | language
  | server
  | apply

/-- The options of an action; before the action only the answer can be given. -/
private def flag? (verb : Option Verb) (name : String) : Option Flag :=
  if name = "--answer" then some .answer
  else match verb with
    | none => none
    | some v =>
      if name = "--workspace" then some .workspace
      else if name = "--language" ∧ v = .settings then some .language
      else if name = "--apply" ∧ v = .migrate then some .apply
      else if name = "--server" ∧ v = .run then some .server
      else none

/-- Whether an argument reads as an option and not as a value. -/
private def looksLikeFlag (s : String) : Bool :=
  s.startsWith "-" && s ≠ "-"

/-- An option and the value that is attached to it after an equals sign. -/
private def splitFlag (s : String) : String × Option String :=
  match s.toList.dropWhile (· ≠ '=') with
  | [] => (s, none)
  | _ :: rest => (String.ofList (s.toList.takeWhile (· ≠ '=')), some (String.ofList rest))

/-- Notes an option. Only workspaces may be repeated, and a path must not be empty. -/
private def Given.set (g : Given) (f : Flag) (value : String) : Option Given :=
  match f with
  | .answer => if g.answer = none then some { g with answer := some value } else none
  | .workspace =>
    if value = "" then none else some { g with workspaces := g.workspaces ++ [value] }
  | .language => if g.language = none then some { g with language := some value } else none
  | .server =>
    if g.server = none ∧ value ≠ "" then some { g with server := some value } else none
  | .apply => if g.apply then none else some { g with apply := true }

private def Given.addFile (g : Given) (s : String) : Option Given :=
  if s = "" then none else some { g with files := g.files ++ [s] }

/-- Reads the arguments after an action. After two dashes all of them are files. -/
private def options (verb : Verb) (g : Given) : List String → Option Given
  | [] => some g
  | arg :: rest =>
    if arg = "--" then rest.foldlM Given.addFile g
    else if looksLikeFlag arg then
      match flag? (some verb) (splitFlag arg).1, (splitFlag arg).2 with
      | none, _ | some .apply, some _ => none
      | some .apply, none => do options verb (← g.set .apply "") rest
      | some f, some value => do options verb (← g.set f value) rest
      | some f, none =>
        match rest with
        | [] => none
        | value :: rest =>
          if looksLikeFlag value then none else do options verb (← g.set f value) rest
    else do options verb (← g.addFile arg) rest

private def choice? (s : String) : Option Migration.Choice :=
  if s = "migrate" then some .migrate
  else if s = "never" then some .never
  else if s = "docs" then some .docs
  else if s = "not-now" then some .notNow
  else none

private def action? (verb : Verb) (g : Given) : Option Action :=
  match verb, g.files.map FilePath.ofString, g.server with
  | .settings, [file], _ => some (.settings file g.language)
  | .migrate, [file], _ => some (.migrate file g.apply)
  | .run, file :: more, some server => some (.run (file :: more) (.ofString server))
  | _, _, _ => none

/-- The answer given after the action counts before the one given in front of it. -/
private def build (before : Option String) (verb : Verb) (g : Given) : Option CommandLine := do
  let first ← before.mapM choice?
  let last ← g.answer.mapM choice?
  let action ← action? verb g
  some ⟨(last <|> first).getD .notNow, g.workspaces.map FilePath.ofString, action⟩

/-- Reads the arguments in front of an action, and all others. -/
private def arguments (answer : Option String) : List String → Option CommandLine
  | [] => none
  | arg :: rest =>
    match verb? arg with
    | some verb => do build answer verb (← options verb .empty rest)
    | none =>
      match flag? none (splitFlag arg).1, answer, (splitFlag arg).2, rest with
      | some _, none, some value, rest => arguments (some value) rest
      | some _, none, none, value :: rest =>
        if looksLikeFlag value then none else arguments (some value) rest
      | _, _, _, _ => none

/-- The command line that arguments form, if they form one. -/
def parse (args : List String) : Option CommandLine :=
  arguments none args

end CommandLine

end LinterClient
