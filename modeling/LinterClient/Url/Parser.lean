import LinterClient.Url.Basic

/-!
Reading URLs: the text is brought into normal form, with a scheme in lower case, no dot segments, and
percent-encoding for what a part may not hold as it is.
-/

namespace LinterClient.Url

/-- Schemes with a host of a known kind: `file`, and those with a default port. -/
inductive Kind where
  | file
  | special (defaultPort : Nat)
  | other
deriving DecidableEq

def Kind.ofScheme (scheme : String) : Kind :=
  if scheme = "file" then .file
  else if scheme = "http" ∨ scheme = "ws" then .special 80
  else if scheme = "https" ∨ scheme = "wss" then .special 443
  else if scheme = "ftp" then .special 21
  else .other

def Kind.isSpecial (k : Kind) : Bool := k ≠ .other

private def trimControls (s : List Char) : List Char :=
  ((s.dropWhile (·.toNat ≤ 0x20)).reverse.dropWhile (·.toNat ≤ 0x20)).reverse

private def isSchemeChar (c : Char) : Bool :=
  c.isAlphanum || c = '+' || c = '-' || c = '.'

/-- The scheme in lower case and what follows its colon. -/
private def splitScheme? (s : List Char) : Option (String × List Char) :=
  match s with
  | c :: _ =>
    if c.isAlpha then
      match s.dropWhile isSchemeChar with
      | ':' :: rest => some (String.ofList ((s.takeWhile isSchemeChar).map Char.toLower), rest)
      | _ => none
    else none
  | [] => none

private def isSeparator (special : Bool) (c : Char) : Bool :=
  c = '/' || (special && c = '\\')

private def endsPath (c : Char) : Bool :=
  c = '?' || c = '#'

private def splitSegments (special : Bool) (s : List Char) : List (List Char) :=
  s.foldr (fun c acc =>
    if isSeparator special c then [] :: acc
    else match acc with
      | [] => [[c]]
      | piece :: more => (c :: piece) :: more) [[]]

private def lowerEscape (s : String) : String :=
  (s.toList.map Char.toLower |> String.ofList).replace "%2e" "."

def isDoubleDot (segment : String) : Bool := lowerEscape segment = ".."

def isSingleDot (segment : String) : Bool := lowerEscape segment = "."

/-- A letter and a colon or bar, as the first segment of some file paths. -/
def isDriveLetter (segment : String) : Bool :=
  match segment.toList with
  | [c, d] => c.isAlpha && (d = ':' || d = '|')
  | _ => false

private def shorten (segments : List String) : List String :=
  match segments with
  | last :: rest => if isDriveLetter last then segments else rest
  | [] => []

private def addSegment (file : Bool) (seen : List String) (segment : String) : List String :=
  if file ∧ seen = [] ∧ isDriveLetter segment then
    String.ofList (segment.toList.take 1 ++ [':']) :: seen
  else segment :: seen

/-- The segments of a path, last first, with dot segments folded. A path that ends in a dot segment
ends in an empty segment. -/
private def foldSegments (file : Bool) (seen : List String) : List String → List String
  | [] => seen
  | [last] =>
    if isDoubleDot last then "" :: shorten seen
    else if isSingleDot last then "" :: seen
    else addSegment file seen last
  | s :: rest =>
    if isDoubleDot s then foldSegments file (shorten seen) rest
    else if isSingleDot s then foldSegments file seen rest
    else foldSegments file (addSegment file seen s) rest

private def normalPath (kind : Kind) (s : List Char) : String :=
  let raw := (splitSegments kind.isSpecial s).map (encodeWith pathSet)
  let segments := (foldSegments (kind = .file) [] raw).reverse
  let path := "/".intercalate segments
  if kind = .file then "/" ++ String.ofList (path.toList.dropWhile (· = '/')) else "/" ++ path

private def startsWithDriveLetter (kind : Kind) (s : List Char) : Bool :=
  match splitSegments kind.isSpecial s with
  | first :: _ => isDriveLetter (String.ofList first)
  | [] => false

private def queryAndFragment (special : Bool) (s : List Char) : Option String × Option String :=
  match s with
  | '#' :: rest => (none, some (encodeWith fragmentSet rest))
  | '?' :: rest =>
    let query := rest.takeWhile (· ≠ '#')
    let fragment := match rest.dropWhile (· ≠ '#') with
      | _ :: f => some (encodeWith fragmentSet f)
      | [] => none
    (some (encodeWith (querySet special) query), fragment)
  | _ => (none, none)

private def build (scheme : String) (kind : Kind) (authority : Option Authority) (path : String)
    (rest : List Char) : Url :=
  let (query, fragment) := queryAndFragment kind.isSpecial rest
  ⟨scheme, authority, path, query, fragment⟩

private def dropSeparator (kind : Kind) (s : List Char) : List Char :=
  match s with
  | c :: rest => if isSeparator kind.isSpecial c then rest else s
  | [] => []

private def filePath (host : Host) (rest : List Char) : Url :=
  let path := rest.takeWhile fun c => !endsPath c
  let after := rest.dropWhile fun c => !endsPath c
  let segments := dropSeparator .file path
  let host := if startsWithDriveLetter .file segments then .empty else host
  build "file" .file (some ⟨"", host, none⟩) (normalPath .file segments) after

private def parseFile (s : List Char) : Except Error Url :=
  match s with
  | a :: b :: rest =>
    if isSeparator true a ∧ isSeparator true b then
      let ends := fun c => isSeparator true c || endsPath c
      let host := rest.takeWhile fun c => !ends c
      if isDriveLetter (String.ofList host) then .ok (filePath .empty rest)
      else if host = [] then .ok (filePath .empty rest)
      else do
        let host ← Host.parse host
        let host := if host = .domain "localhost" then .empty else host
        .ok (filePath host (rest.dropWhile fun c => !ends c))
    else .ok (filePath .empty s)
  | _ => .ok (filePath .empty s)

/-- Text before the last `@` of an authority, in normal form. -/
private def userinfoText (s : List Char) : String :=
  let user := s.takeWhile (· ≠ ':')
  let password := (s.dropWhile (· ≠ ':')).drop 1
  encodeWith userinfoSet user ++
    (if password = [] then "" else ":" ++ encodeWith userinfoSet password)

private def splitLastAt (s : List Char) : Option (List Char × List Char) :=
  if s.contains '@' then
    let reversed := s.reverse
    some ((reversed.dropWhile (· ≠ '@')).drop 1 |>.reverse, (reversed.takeWhile (· ≠ '@')).reverse)
  else none

/-- The host text ends at the first colon outside brackets. -/
private def splitPort (inside : Bool) : List Char → List Char × Option (List Char)
  | [] => ([], none)
  | ':' :: rest =>
    if inside then let (h, p) := splitPort inside rest; (':' :: h, p) else ([], some rest)
  | c :: rest =>
    let (h, p) := splitPort (if c = '[' then true else if c = ']' then false else inside) rest
    (c :: h, p)

private def port? (kind : Kind) (digits : List Char) : Except Error (Option Nat) :=
  if digits = [] then .ok none
  else if digits.all (fun c => '0' ≤ c && c ≤ '9') then
    let n := digits.foldl (fun acc c => min 65536 (acc * 10 + (c.toNat - 48))) 0
    if 65535 < n then .error .invalidPort
    else .ok (if kind = .special n then none else some n)
  else .error .invalidPort

private def parseAuthority (scheme : String) (kind : Kind) (s : List Char) : Except Error Url := do
  let ends := fun c => isSeparator kind.isSpecial c || endsPath c
  let text := s.takeWhile fun c => !ends c
  let rest := s.dropWhile fun c => !ends c
  let (userinfo, hostAndPort) := (splitLastAt text).getD ([], text)
  if (splitLastAt text).isSome ∧ userinfo = [] ∧ hostAndPort = [] ∧ rest ≠ [] then
    .error .emptyHost
  else
    let (hostText, portText) := splitPort false hostAndPort
    let host ←
      if kind.isSpecial then (if hostText = [] then .error .emptyHost else Host.parse hostText)
      else Host.parseOpaque hostText
    let userinfo := userinfoText userinfo
    if host = .empty ∧ (portText.isSome ∨ userinfo ≠ "") then .error .emptyHost
    else
      let port ← port? kind (portText.getD [])
      let raw := rest.takeWhile fun c => !endsPath c
      let after := rest.dropWhile fun c => !endsPath c
      let path :=
        if raw = [] ∧ !kind.isSpecial then "" else normalPath kind (dropSeparator kind raw)
      .ok (build scheme kind (some ⟨userinfo, host, port⟩) path after)

private def parseOther (scheme : String) (s : List Char) : Except Error Url :=
  match s with
  | '/' :: '/' :: rest => parseAuthority scheme .other rest
  | '/' :: rest =>
    let path := rest.takeWhile fun c => !endsPath c
    .ok (build scheme .other none (normalPath .other path) (rest.dropWhile fun c => !endsPath c))
  | _ =>
    let path := s.takeWhile fun c => !endsPath c
    .ok (build scheme .other none (encodeWith [] path) (s.dropWhile fun c => !endsPath c))

/-- The URL that a text stands for. -/
def parse (input : String) : Except Error Url :=
  let s := (trimControls input.toList).filter fun c => c ≠ '\t' && c ≠ '\n' && c ≠ '\r'
  match splitScheme? s with
  | none => .error .relativeWithoutBase
  | some (scheme, rest) =>
    match Kind.ofScheme scheme with
    | .file => parseFile rest
    | .special port =>
      parseAuthority scheme (.special port) (rest.dropWhile fun c => c = '/' || c = '\\')
    | .other => parseOther scheme rest

end LinterClient.Url
