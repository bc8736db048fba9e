/-!
Regular expressions that match at the start of a text, and the match they prefer.

Among the matches the first in the order of choices wins: of alternatives the earlier, of repetitions
the longer.
-/

namespace LinterClient

/-- How two sets of characters are combined inside a class. -/
inductive Regex.SetOperator where
  | intersection
  | difference
  | symmetricDifference
deriving DecidableEq

inductive Regex.CharSet where
  | ranges (items : List (Char × Char))
  | combined (op : Regex.SetOperator) (left right : Regex.CharSet)
deriving DecidableEq

inductive Regex where
  | empty
  | char (c : Char)
  /-- Any character but a line break. -/
  | anyChar
  | set (negated : Bool) (chars : Regex.CharSet)
  | group (body : Regex)
  | seq (first rest : Regex)
  | alt (first rest : Regex)
  | star (body : Regex)
deriving DecidableEq

namespace Regex

def SetOperator.apply : SetOperator → Bool → Bool → Bool
  | .intersection, a, b => a && b
  | .difference, a, b => a && !b
  | .symmetricDifference, a, b => a != b

def CharSet.contains : CharSet → Char → Bool
  | .ranges items, c => items.any fun r => r.1 ≤ c && c ≤ r.2
  | .combined op l r, c => op.apply (l.contains c) (r.contains c)

/-- Keeps the first of several suffixes of one text that have the same length. -/
def firstOfEachLength (seen : List Nat) : List (List Char) → List (List Char)
  | [] => []
  | s :: rest =>
    if seen.contains s.length then firstOfEachLength seen rest
    else s :: firstOfEachLength (s.length :: seen) rest

/-- What remains after any number of steps, each of which takes something; more steps first. -/
def repeated (step : List Char → List (List Char)) : Nat → List Char → List (List Char)
  | 0, s => [s]
  | fuel + 1, s =>
    firstOfEachLength []
      (((step s).filter (·.length < s.length)).flatMap (repeated step fuel) ++ [s])

def one (accepts : Char → Bool) : List Char → List (List Char)
  | c :: rest => if accepts c then [rest] else []
  | [] => []

/-- What remains of suffixes of one text after each way to match their starts, in order of preference.
A suffix that was found before is not followed again. -/
def rests : Regex → List (List Char) → List (List Char)
  | .empty, l => l
  | .char c, l => l.flatMap (one (· = c))
  | .anyChar, l => l.flatMap (one (· ≠ '\n'))
  | .set negated chars, l => l.flatMap (one fun c => chars.contains c != negated)
  | .group body, l => body.rests l
  | .seq first rest, l => rest.rests (first.rests l)
  | .alt first rest, l =>
    firstOfEachLength [] (l.flatMap fun s => first.rests [s] ++ rest.rests [s])
  | .star body, l =>
    firstOfEachLength [] (l.flatMap fun s => repeated (fun t => body.rests [t]) s.length s)

/-- The preferred match at the start of the text. -/
def find? (r : Regex) (s : String) : Option String :=
  match r.rests [s.toList] with
  | [] => none
  | rest :: _ => some (String.ofList (s.toList.take (s.toList.length - rest.length)))

def CharSet.depth : CharSet → Nat
  | .ranges items => if 1 < items.length then 1 else 0
  | .combined _ l r => 1 + max l.depth r.depth

mutual

/-- How deep expressions nest. A sequence or choice of any length counts once. -/
def depth : Regex → Nat
  | .empty | .char _ | .anyChar => 0
  | .set _ chars => 1 + chars.depth
  | .group body => 1 + body.depth
  | .star body => 1 + body.depth
  | .seq first rest => 1 + max first.depth (seqDepth rest)
  | .alt first rest => 1 + max first.depth (altDepth rest)

def seqDepth : Regex → Nat
  | .seq first rest => max first.depth (seqDepth rest)
  | .empty | .char _ | .anyChar => 0
  | .set _ chars => 1 + chars.depth
  | .group body => 1 + body.depth
  | .star body => 1 + body.depth
  | .alt first rest => 1 + max first.depth (altDepth rest)

def altDepth : Regex → Nat
  | .alt first rest => max first.depth (altDepth rest)
  | .empty | .char _ | .anyChar => 0
  | .set _ chars => 1 + chars.depth
  | .group body => 1 + body.depth
  | .star body => 1 + body.depth
  | .seq first rest => 1 + max first.depth (seqDepth rest)

end

def anchoredDepth : Regex → Nat
  | .empty => 0
  | .seq first rest => depth (.seq first rest)
  | r => 1 + r.depth

end Regex

end LinterClient
