/-!
Servers that are written as small shell scripts.

A script reads messages until one contains a text, sends messages, and may end. Of the shell only what
such scripts use is read: the commands `until_frame` and `send`, functions on one line, assignments, tests
for files, `printf`, `touch` and `exit`.
-/

namespace LinterClient.Simulation.ServerScript

/-- A part of a word. -/
inductive Piece where
  | text (s : String)
  | variable (name : String)
  /-- The output of a command, kept as it is written. -/
  | output (command : String)
deriving DecidableEq

abbrev Word := List Piece

/-- One thing that a server does. -/
inductive Step where
  /-- Reads messages until one contains a text. -/
  | await (text : Word)
  | send (message : Word)
  | write (text : Word)
  | assign (name : String) (value : Word)
  /-- Keeps the value of the last member with a name in the last message. -/
  | keep (name member : String)
  | touch (file : Word)
  | ifExists (file : Word) (yes no : List Step)
  | exit

private def isBlank (c : Char) : Bool :=
  c = ' ' || c = '\t'

private def isNameChar (c : Char) : Bool :=
  c.isAlphanum || c = '_'

/-- The text up to a closing parenthesis outside quotes, and what follows it. -/
private def untilClosed (seen : List Char) (quoted : Bool) : List Char → List Char × List Char
  | [] => (seen.reverse, [])
  | c :: rest =>
    if c = '\'' then untilClosed (c :: seen) (!quoted) rest
    else if c = ')' && !quoted then (seen.reverse, rest)
    else untilClosed (c :: seen) quoted rest

/-- What a dollar sign stands for. -/
private def expansion (s : List Char) : Piece × List Char :=
  match s with
  | '(' :: rest =>
    let (command, rest) := untilClosed [] false rest
    (.output (String.ofList command), rest)
  | _ => (.variable (String.ofList (s.takeWhile isNameChar)), s.dropWhile isNameChar)

private def quotedWord : (fuel : Nat) → List Piece → List Char → List Piece × List Char
  | 0, seen, s => (seen, s)
  | _ + 1, seen, [] => (seen, [])
  | fuel + 1, seen, c :: rest =>
    if c = '"' then (seen, rest)
    else if c = '$' then
      let (p, rest) := expansion rest
      quotedWord fuel (p :: seen) rest
    else match c, rest with
      | '\\', d :: rest => quotedWord fuel (.text (String.singleton d) :: seen) rest
      | _, _ => quotedWord fuel (.text (String.singleton c) :: seen) rest

private def isEnd (c : Char) : Bool :=
  c = ';' || c = '\n'

/-- The rest of a word, with the last piece first. -/
private def word : (fuel : Nat) → List Piece → List Char → List Piece × List Char
  | 0, seen, s => (seen, s)
  | _ + 1, seen, [] => (seen, [])
  | fuel + 1, seen, c :: rest =>
    if isBlank c || isEnd c then (seen, c :: rest)
    else if c = '\'' then
      word fuel (.text (String.ofList (rest.takeWhile (· ≠ '\''))) :: seen)
        ((rest.dropWhile (· ≠ '\'')).drop 1)
    else if c = '"' then
      let (seen, rest) := quotedWord fuel seen rest
      word fuel seen rest
    else if c = '$' then
      let (p, rest) := expansion rest
      word fuel (p :: seen) rest
    else word fuel (.text (String.singleton c) :: seen) rest

/-- The commands of a text, each a list of words. -/
private def commands : (fuel : Nat) → (line : List Word) → List Char → List (List Word)
  | 0, line, _ => [line.reverse]
  | _ + 1, line, [] => [line.reverse]
  | fuel + 1, line, c :: rest =>
    if isBlank c then commands fuel line rest
    else if isEnd c then line.reverse :: commands fuel [] rest
    else
      let (pieces, rest) := word fuel [] (c :: rest)
      commands fuel (pieces.reverse :: line) rest

private def plain (w : Word) : String :=
  String.join (w.map fun p => match p with
    | .text s => s
    | .variable _ | .output _ => "")

/-- An assignment: the name, and the pieces of the value. -/
private def assignment? (w : Word) : Option (String × Word) :=
  let name := (plain w).toList.takeWhile (· ≠ '=')
  let front := (w.takeWhile (· ≠ .text "=")).length
  if name.isEmpty || !name.all isNameChar || front = w.length then none
  else some (String.ofList name, w.drop (front + 1))

/-- The member that a command looks for: the first name in quotation marks before a colon. -/
private def memberIn (command : String) : String :=
  let fields := command.splitOn "\""
  match fields.zip (fields.drop 1) |>.find? fun (_, next) => next.startsWith ":" with
  | some (name, _) => name
  | none => ""

private def unescape : List Char → List Char
  | '\\' :: 'r' :: rest => '\r' :: unescape rest
  | '\\' :: 'n' :: rest => '\n' :: unescape rest
  | '\\' :: 't' :: rest => '\t' :: unescape rest
  | '\\' :: '\\' :: rest => '\\' :: unescape rest
  | '%' :: '%' :: rest => '%' :: unescape rest
  | c :: rest => c :: unescape rest
  | [] => []

/-- What a format prints without further arguments: escapes stand for control characters. -/
private def formatted (format : Word) : Word :=
  format.map fun p => match p with
    | .text s => .text (String.ofList (unescape s.toList))
    | p => p

/-- Functions that are made of steps, by their names. -/
abbrev Functions := List (String × List Step)

/-- The steps of commands up to the end of the branch that they stand in, and what follows. -/
private def steps (functions : Functions) : (fuel : Nat) → List (List Word) →
    List Step × List (List Word)
  | 0, rest => ([], rest)
  | _ + 1, [] => ([], [])
  | fuel + 1, line :: rest =>
    let next := fun (now : List Step) =>
      let (more, rest) := steps functions fuel rest
      (now ++ more, rest)
    match line with
    | [] => next []
    | w :: arguments =>
      match plain w, arguments with
      | "then", _ => steps functions fuel (arguments :: rest)
      | "else", _ | "fi", _ => ([], line :: rest)
      | "if", [_, _, file, _] =>
        let (yes, rest) := steps functions fuel rest
        let (no, rest) := match rest with
          | (e :: more) :: rest =>
            if plain e = "else" then steps functions fuel (more :: rest) else ([], (e :: more) :: rest)
          | _ => ([], rest)
        let (more, rest) := steps functions fuel (rest.drop 1)
        (.ifExists file yes no :: more, rest)
      | "until_frame", [text] => next [.await text]
      | "send", [message] => next [.send message]
      | "printf", [format] => next [.write (formatted format)]
      | "touch", [file] => next [.touch file]
      | "exit", _ => next [.exit]
      | name, _ =>
        match functions.lookup name, assignment? w with
        | some body, _ => next body
        | none, some (name, [.output command]) => next [.keep name (memberIn command)]
        | none, some (name, value) => next [.assign name value]
        | none, none => next []

private def stepsOf (functions : Functions) (s : List Char) : List Step :=
  (steps functions (2 * s.length + 2) (commands (s.length + 1) [] s)).1

/-- A function on one line: its name and its body. -/
private def function? (line : String) : Option (String × String) :=
  match line.splitOn "() \x7b " with
  | name :: body :: more =>
    if !name.isEmpty && name.toList.all isNameChar then
      some (name, String.ofList ("() \x7b ".intercalate (body :: more)).toList.dropLast)
    else none
  | _ => none

/-- Reads a script line by line: functions are kept, all other lines are steps. -/
private def lines (functions : Functions) (main : List String) : List String → List Step
  | [] => stepsOf functions ("\n".intercalate main.reverse).toList
  | line :: rest =>
    match function? line with
    | some (name, body) => lines (functions ++ [(name, stepsOf functions body.toList)]) main rest
    | none => lines functions (line :: main) rest

def parse (script : String) : List Step :=
  lines [] [] (script.splitOn "\n")

end LinterClient.Simulation.ServerScript
