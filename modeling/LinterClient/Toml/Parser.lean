import LinterClient.Toml.Document
import LinterClient.Toml.Number

/-!
Reading TOML documents.

Arrays and tables between braces nest at most eighty deep, and a dotted path has at most eighty keys.
Line breaks are kept without their carriage returns.
-/

namespace LinterClient.Toml.Parser

def isBlank (c : Char) : Bool :=
  c = ' ' || c = '\t'

/-- How deep values nest, and how long dotted paths are. -/
def limit : Nat := 80

/-- The text of characters that were read. -/
def kept (s : List Char) : String :=
  String.ofList (s.filter (· ≠ '\r'))

/-- What was read between two points of the text. -/
def between (start rest : List Char) : String :=
  kept (start.take (start.length - rest.length))

def skipBlanks (s : List Char) : List Char :=
  s.dropWhile isBlank

/-- The characters after a line break, if one is next. -/
def lineBreak? : List Char → Option (List Char)
  | '\n' :: rest | '\r' :: '\n' :: rest => some rest
  | _ => none

def isLineEnd (c : Char) : Bool :=
  c = '\n' || c = '\r'

/-- The characters after a comment, which ends before its line break. -/
def skipComment (s : List Char) : Option (List Char) :=
  match s with
  | '#' :: rest =>
    if (rest.takeWhile fun c => !isLineEnd c).any Quoted.isControl then none
    else some (rest.dropWhile fun c => !isLineEnd c)
  | _ => some s

/-- The characters after blanks, comments and line breaks. -/
def skipTrivia : Nat → List Char → Option (List Char)
  | 0, s => some s
  | fuel + 1, s => do
    let s ← skipComment (skipBlanks s)
    match lineBreak? s with
    | some rest => skipTrivia fuel rest
    | none => some s

def trivia (s : List Char) : Option (List Char) :=
  skipTrivia (s.length + 1) s

/-- The end of a line: blanks, a comment and the line break. -/
def endLine (s : List Char) : Option (String × List Char) := do
  let rest ← skipComment (skipBlanks s)
  let text := between s rest
  if rest.isEmpty then some (text, []) else (lineBreak? rest).map (text, ·)

/-- The keys of a dotted path, each with the blanks around it. -/
def keys : (fuel : Nat) → (seen : List Key) → List Char → Option (List Key × List Char)
  | 0, _, _ => none
  | fuel + 1, seen, s => do
    let start := skipBlanks s
    let (name, rest) ← Quoted.readKey? start
    let next := skipBlanks rest
    let key : Key := ⟨name, some (between start rest), .usual,
      ⟨some (between s start), some (between rest next)⟩, none⟩
    match next with
    | '.' :: next => keys fuel (key :: seen) next
    | _ => some (key :: seen, next)

/-- The blanks around a whole path belong to its last key. -/
def settle (before : String) (remaining : Nat) (last : Key) (path : List Key) :
    Key × List Key :=
  let start := (path.getLast?.getD last).inside.before.getD ""
  let around : Trivia := ⟨some (before ++ start), last.inside.after⟩
  let open_ := fun (k : Key) => { k with inside := { k.inside with before := some "" } }
  let last := { last with
    around, inside := { last.inside with after := some "" }, remaining := some remaining }
  match path.reverse with
  | [] => (open_ last, [])
  | first :: rest => (last, open_ first :: rest)

/-- A dotted path after some trivia; its last key comes first. -/
def keyPath (before : String) (remaining : Nat) (s : List Char) :
    Option (Key × List Key × List Char) := do
  match ← keys limit [] s with
  | (last :: path, rest) =>
    let (key, path) := settle before remaining last path
    some (key, path, rest)
  | ([], _) => none

/-- Whether a character ends a number, a date or a word. -/
def isEnd (c : Char) : Bool :=
  isBlank c || isLineEnd c || c = '#' || c = ',' || c = ']' || c = '\x7d'

/-- The characters of a number, a date or a word. A time may follow its date after a space. -/
def word (s : List Char) : List Char × List Char :=
  let first := s.takeWhile fun c => !isEnd c
  let rest := s.dropWhile fun c => !isEnd c
  match rest with
  | ' ' :: c :: more =>
    if c.isDigit && ((Date.read? first).map (·.2)) = some [] then
      (first ++ ' ' :: (c :: more).takeWhile fun c => !isEnd c,
        (c :: more).dropWhile fun c => !isEnd c)
    else (first, rest)
  | _ => (first, rest)

def ofWord (s : List Char) : Option Value :=
  if s = ['t', 'r', 'u', 'e'] then some (.bool true)
  else if s = ['f', 'a', 'l', 's', 'e'] then some (.bool false)
  else ((Datetime.read? s).map .datetime) <|> ((Number.int? s).map .int)
    <|> ((Number.float? s).map .float)

def setAround (around : Trivia) : Item → Item
  | .value v spelling _ => .value v spelling around
  | .inline entries braces _ => .inline entries braces around
  | i => i

mutual

/-- A value at the start of the characters; `depth` bounds how far it may nest. -/
def item : (fuel depth : Nat) → List Char → Option (Item × List Char)
  | 0, _, _ => none
  | fuel + 1, depth, s =>
    match s with
    | [] => none
    | '"' :: _ | '\'' :: _ => do
      let (text, rest) ← Quoted.read? s
      some (.value (.str text) (some (between s rest)) .usual, rest)
    | '[' :: rest =>
      match depth with
      | 0 => none
      | depth + 1 => do
        let (values, rest) ← elements fuel depth [] rest
        some (.value (.array values) (some (between s rest)) .usual, rest)
    | '\x7b' :: rest =>
      match depth with
      | 0 => none
      | depth + 1 => pairs fuel depth [] rest
    | _ => do
      let (chars, rest) := word s
      let v ← ofWord chars
      some (.value v (some (kept chars)) .usual, rest)

/-- The rest of an array. -/
def elements : (fuel depth : Nat) → (seen : List Value) → List Char →
    Option (List Value × List Char)
  | 0, _, _, _ => none
  | fuel + 1, depth, seen, s => do
    match ← trivia s with
    | ']' :: rest => some (seen.reverse, rest)
    | start => do
      let (i, rest) ← item fuel depth start
      match ← trivia rest with
      | ',' :: rest => elements fuel depth (i.data :: seen) rest
      | ']' :: rest => some ((i.data :: seen).reverse, rest)
      | _ => none

/-- The rest of a table between braces, after an opening brace or a comma. -/
def pairs : (fuel depth : Nat) → (seen : Entries) → List Char → Option (Item × List Char)
  | 0, _, _, _ => none
  | fuel + 1, depth, seen, s => do
    let start ← trivia s
    match start with
    | '\x7d' :: rest =>
      some (.inline seen ⟨false, !seen.isEmpty, between s start⟩ .usual, rest)
    | _ => do
      let (key, path, rest) ← keyPath (between s start) start.length start
      match rest with
      | '=' :: rest => do
        let first ← trivia rest
        let (i, more) ← item fuel depth first
        let next ← trivia more
        let i := setAround ⟨some (between rest first), some (between more next)⟩ i
        let seen ← Entries.addPair key i false false seen path
        match next with
        | ',' :: rest => pairs fuel depth seen rest
        | '\x7d' :: rest => some (.inline seen .new .usual, rest)
        | _ => none
      | _ => none

end

/-- A line that sets a key, after some trivia. -/
def line (before : String) (s : List Char) : Option (Line × List Char) := do
  let (key, path, rest) ← keyPath before s.length s
  match rest with
  | '=' :: rest => do
    let first := skipBlanks rest
    let (i, more) ← item (2 * s.length + 2) limit first
    let (after, next) ← endLine more
    some (⟨path, key, setAround ⟨some (between rest first), some after⟩ i⟩, next)
  | _ => none

/-- A header, after some trivia. -/
def header (before : String) (s : List Char) : Option (Section × List Char) := do
  let (isElement, inside) ← match s with
    | '[' :: '[' :: rest => some (true, rest)
    | '[' :: rest => some (false, rest)
    | _ => none
  let (key, path, rest) ← keyPath "" 0 inside
  let rest ← match isElement, rest with
    | true, ']' :: ']' :: rest | false, ']' :: rest => some rest
    | _, _ => none
  let (after, next) ← endLine rest
  some (⟨path, key, isElement, ⟨some before, some after⟩, []⟩, next)

/-- What has been read: the first lines, and the sections with the last one first. -/
structure Progress where
  lines : List Line
  sections : List Section

def Progress.addLine (p : Progress) (l : Line) : Progress :=
  match p.sections with
  | [] => { p with lines := p.lines ++ [l] }
  | s :: rest => { p with sections := { s with lines := s.lines ++ [l] } :: rest }

def document : (fuel : Nat) → Progress → List Char → Option Document
  | 0, _, _ => none
  | fuel + 1, p, s => do
    let start ← trivia s
    let before := between s start
    match start with
    | [] => Document.ofSections? p.lines p.sections.reverse before
    | '[' :: _ => do
      let (s, rest) ← header before start
      document fuel { p with sections := s :: p.sections } rest
    | _ => do
      let (l, rest) ← line before start
      document fuel (p.addLine l) rest

end LinterClient.Toml.Parser

namespace LinterClient.Toml

/-- The document that a text is, unless it is no TOML. A byte order mark at the start is dropped. -/
def Document.parse? (text : String) : Option Document :=
  let s := match text.toList with
    | c :: rest => if c = Char.ofNat 0xFEFF then rest else c :: rest
    | [] => []
  Parser.document (s.length + 1) ⟨[], []⟩ s

end LinterClient.Toml
