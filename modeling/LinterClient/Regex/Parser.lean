import LinterClient.Regex.Basic

/-!
The written form of anchored regular expressions: characters, escapes, `.`, classes, groups that
capture nothing, choices and `*`.
-/

namespace LinterClient.Regex

/-- Characters with a meaning of their own, which a backslash takes from them. -/
def isMeta (c : Char) : Bool :=
  ['\\', '.', '+', '*', '?', '(', ')', '|', '[', ']', '\x7b', '\x7d', '^', '$', '#', '&', '-', '~'].contains c

def classChar : List Char → Option (Char × List Char)
  | '\\' :: c :: rest => if isMeta c then some (c, rest) else none
  | '\\' :: [] => none
  | '[' :: _ => none
  | c :: rest => some (c, rest)
  | [] => none

def classItem (s : List Char) : Option ((Char × Char) × List Char) :=
  match classChar s with
  | none => none
  | some (low, rest) =>
    match rest with
    | '-' :: c :: more =>
      if c = ']' ∨ c = '-' then some ((low, low), rest)
      else
        match classChar (c :: more) with
        | none => none
        | some (high, after) => if low ≤ high then some ((low, high), after) else none
    | _ => some ((low, low), rest)

def combine (left : Option (SetOperator × CharSet)) (items : List (Char × Char)) : CharSet :=
  match left with
  | none => .ranges items
  | some (op, l) => .combined op l (.ranges items)

/-- The rest of a class after its start; an operator combines all that stands left of it with what
follows up to the next one. -/
def classBody : Nat → Option (SetOperator × CharSet) → List (Char × Char) → List Char →
    Option (CharSet × List Char)
  | 0, _, _, _ => none
  | fuel + 1, left, items, s =>
    match s with
    | [] => none
    | ']' :: rest => some (combine left items, rest)
    | '&' :: '&' :: rest => classBody fuel (some (.intersection, combine left items)) [] rest
    | '-' :: '-' :: rest => classBody fuel (some (.difference, combine left items)) [] rest
    | '~' :: '~' :: rest => classBody fuel (some (.symmetricDifference, combine left items)) [] rest
    | _ =>
      match classItem s with
      | none => none
      | some (item, rest) => classBody fuel left (items ++ [item]) rest

/-- A class after its bracket. Hyphens at the start stand for themselves, and so does a bracket that
would close a class without characters. -/
def charClass (s : List Char) : Option (Regex × List Char) :=
  let (negated, s) := match s with
    | '^' :: rest => (true, rest)
    | _ => (false, s)
  let hyphens := (s.takeWhile (· = '-')).map fun c => (c, c)
  let s := s.dropWhile (· = '-')
  let (items, s) := match hyphens, s with
    | [], ']' :: rest => ([(']', ']')], rest)
    | _, _ => (hyphens, s)
  (classBody (s.length + 1) none items s).map fun (chars, rest) => (.set negated chars, rest)

def sequence : List Regex → Regex
  | [] => .empty
  | [r] => r
  | r :: rest => .seq r (sequence rest)

def withStar (r : Regex) (s : List Char) : Regex × List Char :=
  match s with
  | '*' :: rest => (.star r, rest)
  | _ => (r, s)

mutual

/-- Alternatives up to a closing parenthesis or the end. -/
def choice : Nat → List Char → Option (Regex × List Char)
  | 0, _ => none
  | fuel + 1, s =>
    match items fuel s with
    | none => none
    | some (seen, rest) =>
      match rest with
      | '|' :: rest =>
        match choice fuel rest with
        | none => none
        | some (other, rest) => some (.alt (sequence seen) other, rest)
      | _ => some (sequence seen, rest)

def items : Nat → List Char → Option (List Regex × List Char)
  | 0, _ => none
  | fuel + 1, s =>
    match s with
    | [] => some ([], [])
    | ')' :: _ => some ([], s)
    | '|' :: _ => some ([], s)
    | _ =>
      match atom fuel s with
      | none => none
      | some (r, rest) =>
        let (r, rest) := withStar r rest
        match items fuel rest with
        | none => none
        | some (more, rest) => some (r :: more, rest)

def atom : Nat → List Char → Option (Regex × List Char)
  | 0, _ => none
  | fuel + 1, s =>
    match s with
    | '(' :: '?' :: ':' :: rest =>
      match choice fuel rest with
      | some (r, ')' :: rest) => some (.group r, rest)
      | _ => none
    | '[' :: rest => charClass rest
    | '.' :: rest => some (.anyChar, rest)
    | '\\' :: c :: rest => if isMeta c then some (.char c, rest) else none
    | c :: rest => if isMeta c then none else some (.char c, rest)
    | [] => none

end

/-- How deep an expression may nest. -/
def maxDepth : Nat := 250

/-- The expression of a text that starts with the anchor `^`. -/
def parseAnchored (s : String) : Option Regex :=
  match s.toList with
  | '^' :: rest =>
    match choice (3 * rest.length + 3) rest with
    | some (r, []) => if r.anchoredDepth ≤ maxDepth then some r else none
    | _ => none
  | _ => none

end LinterClient.Regex
