import LinterClient.Migration.Choice
import LinterClient.Session.Windowing

/-!
A client without an editor: what it shows is printed.

Messages go to the error output, so that the standard output carries results only. The question about
migrations is answered as the user said in advance.
-/

namespace LinterClient

structure Terminal where
  /-- The answer to the question whether settings are to be migrated. -/
  answer : Migration.Choice
  logFile : Option FilePath
  printsStatus : Bool

namespace Terminal

/-- What was printed to the standard output and to the error output. -/
structure Output where
  out : String
  err : String
deriving DecidableEq

instance : Append Output where
  append a b := ⟨a.out ++ b.out, a.err ++ b.err⟩

def Output.empty : Output := ⟨"", ""⟩

/-- A modal message that offers the user's answer gets it; others are not answered. -/
def reply (t : Terminal) (m : Window.Message) : Option String :=
  if m.modal && m.actions.contains t.answer.title then some t.answer.title else none

private def messageText (t : Terminal) (m : Window.Message) : String :=
  "[" ++ m.level.name ++ "] " ++ m.text ++ "\n" ++
    match t.reply m with
    | some title => "  -> " ++ title ++ "\n"
    | none => if m.actions.isEmpty then "" else "  (" ++ " | ".intercalate m.actions ++ ")\n"

private def statusText (v : Window.StatusView) : String :=
  "status: " ++ v.text ++ (if v.tooltip = "" then "" else " (" ++ v.tooltip ++ ")") ++ "\n"

/-- What an event prints, given the status that was shown last. -/
private def eventOutput (t : Terminal) (last : Option Window.StatusView) : Window.Event → Output
  | .message m => ⟨"", t.messageText m⟩
  | .external url => ⟨"", "See " ++ url ++ "\n"⟩
  | .output =>
    ⟨"", match t.logFile with
      | some p => "Log: " ++ p.text ++ "\n"
      | none => "Logging is disabled.\n"⟩
  | .status v => ⟨if t.printsStatus ∧ last ≠ some v then statusText v else "", ""⟩

private def outputAfter (t : Terminal) (last : Option Window.StatusView) : List Window.Event → Output
  | [] => .empty
  | e :: rest =>
    let next := match e with
      | .status v => some v
      | _ => last
    t.eventOutput last e ++ outputAfter t next rest

/-- What events print. A status that has not changed is not printed again. -/
def output (t : Terminal) (events : List Window.Event) : Output :=
  t.outputAfter none events

def answerAll {σ : Type} (t : Terminal) (s : Session σ) : Session σ :=
  s.window.unanswered.foldl (fun s m => s.answerMessage m.1 (t.reply m.2)) s

end Terminal

end LinterClient
