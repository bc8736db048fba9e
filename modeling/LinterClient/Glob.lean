import LinterClient.Regex.Parser

/-!
Globs over paths, and the regular expressions that they compile to.
-/

namespace LinterClient.Glob

/-- A piece of a glob. -/
inductive Token where
  /-- Any number of whole segments, each with its slash. -/
  | segments
  /-- Any text on one line. -/
  | anything
  | star
  /-- One character inside a segment. -/
  | single
  | groupStart
  | groupEnd
  | separator
  | charClass (negated : Bool) (body : List Char)
  | char (c : Char)
deriving DecidableEq

private theorem length_dropWhile_le (p : Char → Bool) (s : List Char) :
    (s.dropWhile p).length ≤ s.length := by
  induction s with
  | nil => simp
  | cons c s ih =>
    rw [List.dropWhile_cons]
    split
    · exact Nat.le_succ_of_le ih
    · exact Nat.le_refl _

/-- The pieces of a glob inside the given number of groups. A group or class that is not closed makes
the glob invalid. Outside groups `,` and `\x7d` stand for themselves. -/
def tokens (groups : Nat) (s : List Char) : Option (List Token) :=
  match s with
  | [] => if groups = 0 then some [] else none
  | '*' :: '*' :: '/' :: rest => (tokens groups rest).map (.segments :: ·)
  | '*' :: '*' :: rest => (tokens groups rest).map (.anything :: ·)
  | '*' :: rest => (tokens groups rest).map (.star :: ·)
  | '?' :: rest => (tokens groups rest).map (.single :: ·)
  | '\x7b' :: rest => (tokens (groups + 1) rest).map (.groupStart :: ·)
  | '\x7d' :: rest =>
    if groups = 0 then (tokens 0 rest).map (.char '\x7d' :: ·)
    else (tokens (groups - 1) rest).map (.groupEnd :: ·)
  | ',' :: rest =>
    (tokens groups rest).map ((if groups = 0 then .char ',' else .separator) :: ·)
  | '[' :: rest =>
    let negated := rest.head? = some '!'
    let body := if negated then rest.drop 1 else rest
    match _h : body.dropWhile (· ≠ ']') with
    | [] => none
    | _ :: after =>
      (tokens groups after).map (.charClass negated (body.takeWhile (· ≠ ']')) :: ·)
  | c :: rest => (tokens groups rest).map (.char c :: ·)
termination_by s.length
decreasing_by
  all_goals try (simp only [List.length_cons]; omega)
  have hle := length_dropWhile_le (fun c => decide (c ≠ ']')) body
  rw [_h] at hle
  have hbody : body.length ≤ rest.length := by
    show (if negated then rest.drop 1 else rest).length ≤ rest.length
    split <;> simp
  simp only [List.length_cons] at *
  omega

def escape (c : Char) : List Char :=
  if Regex.isMeta c then ['\\', c] else [c]

def escapeInClass (c : Char) : List Char :=
  if c = '\\' ∨ c = '[' then ['\\', c] else [c]

/-- The regular expression of one piece, as text. -/
def Token.source : Token → List Char
  | .segments => "(?:[^/]*/)*".toList
  | .anything => ".*".toList
  | .star => "[^/]*".toList
  | .single => "[^/]".toList
  | .groupStart => "(?:".toList
  | .groupEnd => [')']
  | .separator => ['|']
  | .charClass negated body =>
    ['['] ++ (if negated then ['^'] else []) ++ body.flatMap escapeInClass ++ [']']
  | .char c => escape c

/-- The text of the anchored regular expression for a glob, unless a group or class is not closed. -/
def source? (glob : String) : Option String :=
  (tokens 0 glob.toList).map fun ts => String.ofList ('^' :: ts.flatMap Token.source)

/-- The regular expression for a glob, with its text. -/
def compile? (glob : String) : Option (String × Regex) :=
  (source? glob).bind fun text => (Regex.parseAnchored text).map (text, ·)

def match? (glob subject : String) : Option String :=
  (compile? glob).bind fun c => c.2.find? subject

end LinterClient.Glob
