/-!
Texts and keys in quotation marks.

Four forms are read: basic ones with escapes and literal ones without, on one line or on several. A
text is written in the simplest form that needs no escapes, a key bare if it can be.
-/

namespace LinterClient.Toml.Quoted

/-- Control characters other than the tab; they never stand in a text as they are. -/
def isControl (c : Char) : Bool :=
  (c.toNat < 32 && c ≠ '\t') || c.toNat = 127

def hexDigit? (c : Char) : Option Nat :=
  if c.isDigit then some (c.toNat - 48)
  else if 'a' ≤ c ∧ c ≤ 'f' then some (c.toNat - 87)
  else if 'A' ≤ c ∧ c ≤ 'F' then some (c.toNat - 55)
  else none

def codePoint? (count : Nat) (s : List Char) : Option (Char × List Char) :=
  let digits := (s.take count).filterMap hexDigit?
  let n := digits.foldl (fun n d => 16 * n + d) 0
  if digits.length = count ∧ n.isValidChar then some (Char.ofNat n, s.drop count) else none

def escape? : List Char → Option (Char × List Char)
  | 'b' :: rest => some (Char.ofNat 8, rest)
  | 't' :: rest => some ('\t', rest)
  | 'n' :: rest => some ('\n', rest)
  | 'f' :: rest => some (Char.ofNat 12, rest)
  | 'r' :: rest => some ('\r', rest)
  | 'e' :: rest => some (Char.ofNat 27, rest)
  | '"' :: rest => some ('"', rest)
  | '\\' :: rest => some ('\\', rest)
  | 'x' :: rest => codePoint? 2 rest
  | 'u' :: rest => codePoint? 4 rest
  | 'U' :: rest => codePoint? 8 rest
  | _ => none

/-- The rest of a basic text on one line. -/
def basic : (fuel : Nat) → (seen : List Char) → List Char → Option (String × List Char)
  | 0, _, _ => none
  | _ + 1, _, [] => none
  | fuel + 1, seen, c :: rest =>
    if c = '"' then some (String.ofList seen.reverse, rest)
    else if c = '\\' then do
      let (e, rest) ← escape? rest
      basic fuel (e :: seen) rest
    else if isControl c then none
    else basic fuel (c :: seen) rest

/-- The rest of a literal text on one line. -/
def literal (s : List Char) : Option (String × List Char) :=
  let content := s.takeWhile (· ≠ '\'')
  match s.dropWhile (· ≠ '\'') with
  | [] => none
  | _ :: rest => if content.any isControl then none else some (String.ofList content, rest)

/-- How many of a mark stand at the start, five at most. -/
def marks (mark : Char) (s : List Char) : Nat :=
  ((s.take 5).takeWhile (· = mark)).length

def isBlank (c : Char) : Bool :=
  c = ' ' || c = '\t'

/-- What follows a backslash at the end of a line: the text goes on at the next character that is no
blank. -/
def continued? (s : List Char) : Option (List Char) :=
  match s.dropWhile isBlank with
  | '\n' :: rest | '\r' :: '\n' :: rest =>
    some (rest.dropWhile fun c => isBlank c || c = '\n' || c = '\r')
  | _ => none

/-- The rest of a text on several lines. One or two marks belong to it; of five, the first two. -/
def lines (mark : Char) :
    (fuel : Nat) → (seen : List Char) → List Char → Option (String × List Char)
  | 0, _, _ => none
  | _ + 1, _, [] => none
  | fuel + 1, seen, c :: rest =>
    if c = mark then
      let n := marks mark (c :: rest)
      if n < 3 then lines mark fuel (c :: seen) rest
      else some (String.ofList (List.replicate (n - 3) mark ++ seen).reverse, (c :: rest).drop n)
    else if c = '\\' && mark = '"' then
      match continued? rest with
      | some rest => lines mark fuel seen rest
      | none => do
        let (e, rest) ← escape? rest
        lines mark fuel (e :: seen) rest
    else if c = '\n' then lines mark fuel (c :: seen) rest
    else if c = '\r' then
      match rest with
      | '\n' :: rest => lines mark fuel ('\n' :: c :: seen) rest
      | _ => none
    else if isControl c then none
    else lines mark fuel (c :: seen) rest

def firstLine : List Char → List Char
  | '\n' :: rest | '\r' :: '\n' :: rest => rest
  | s => s

/-- A text on one line, at the start of the characters. -/
def readLine? : List Char → Option (String × List Char)
  | '"' :: rest => basic (rest.length + 1) [] rest
  | '\'' :: rest => literal rest
  | _ => none

/-- A text of any form, at the start of the characters. -/
def read? : List Char → Option (String × List Char)
  | '"' :: '"' :: '"' :: rest => lines '"' (rest.length + 1) [] (firstLine rest)
  | '\'' :: '\'' :: '\'' :: rest => lines '\'' (rest.length + 1) [] (firstLine rest)
  | s => readLine? s

def longestRun (mark : Char) : List Char → Nat
  | [] => 0
  | c :: rest => max (((c :: rest).takeWhile (· = mark)).length) (longestRun mark rest)

def hexDigit (n : Nat) : Char :=
  if n < 10 then Char.ofNat (48 + n) else Char.ofNat (55 + n)

def escaped (several : Bool) (c : Char) : List Char :=
  if c = Char.ofNat 8 then ['\\', 'b']
  else if c = '\t' then ['\\', 't']
  else if c = '\n' then if several then [c] else ['\\', 'n']
  else if c = Char.ofNat 12 then ['\\', 'f']
  else if c = '\r' then ['\\', 'r']
  else if c = '\\' then ['\\', '\\']
  else if isControl c then
    ['\\', 'u', '0', '0', hexDigit (c.toNat / 16), hexDigit (c.toNat % 16)]
  else [c]

/-- The inside of a basic text. On several lines the third mark of a run is escaped. -/
def basicInside (several : Bool) (run : Nat) : List Char → List Char
  | [] => []
  | c :: rest =>
    if c = '"' then
      if several && run < 2 then c :: basicInside several (run + 1) rest
      else '\\' :: '"' :: basicInside several 0 rest
    else escaped several c ++ basicInside several 0 rest

def basicText (s : List Char) : String :=
  "\"" ++ String.ofList (basicInside false 0 s) ++ "\""

def literalText (s : List Char) : String :=
  "'" ++ String.ofList s ++ "'"

/-- A text with a line break starts on a line of its own. -/
def opening (s : List Char) : String :=
  if s.contains '\n' then "\n" else ""

def basicLines (s : List Char) : String :=
  "\"\"\"" ++ opening s ++ String.ofList (basicInside true 0 s) ++ "\"\"\""

def literalLines (s : List Char) : String :=
  "'''" ++ opening s ++ String.ofList s ++ "'''"

def text (value : String) : String :=
  let s := value.toList
  let broken := s.contains '\n'
  let control := s.any fun c => isControl c && c ≠ '\n'
  let backslash := s.contains '\\'
  let double := longestRun '"' s
  let single := longestRun '\'' s
  if !control && !backslash && double = 0 && !broken then basicText s
  else if !control && single = 0 && !broken then literalText s
  else if !control && !backslash && double ≤ 2 then basicLines s
  else if !control && single ≤ 2 then literalLines s
  else if broken then basicLines s
  else basicText s

def isBare (c : Char) : Bool :=
  c.isAlphanum || c = '-' || c = '_'

def key (name : String) : String :=
  let s := name.toList
  let control := s.any isControl
  if !s.isEmpty && s.all isBare then name
  else if !control && !s.contains '\\' && !s.contains '"' then basicText s
  else if !control && !s.contains '\'' then literalText s
  else basicText s

/-- A key at the start of the characters: bare or in quotation marks. -/
def readKey? (s : List Char) : Option (String × List Char) :=
  match s with
  | '"' :: '"' :: '"' :: _ | '\'' :: '\'' :: '\'' :: _ => none
  | '"' :: _ | '\'' :: _ => readLine? s
  | _ =>
    let name := s.takeWhile isBare
    if name.isEmpty then none else some (String.ofList name, s.dropWhile isBare)

end LinterClient.Toml.Quoted
