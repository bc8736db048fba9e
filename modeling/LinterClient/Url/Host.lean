import LinterClient.Url.Percent

/-!
Hosts: domain names, and the two kinds of numeric address in their normal forms.
-/

namespace LinterClient.Url

/-- Why a text is no URL. -/
inductive Error where
  | relativeWithoutBase
  | emptyHost
  | invalidDomain
  | invalidDomainCharacter
  | invalidPort
  | invalidIpv4
  | invalidIpv6
deriving DecidableEq

def Error.message : Error → String
  | .relativeWithoutBase => "relative URL without a base"
  | .emptyHost => "empty host"
  | .invalidDomain => "invalid international domain name"
  | .invalidDomainCharacter => "invalid domain character"
  | .invalidPort => "invalid port number"
  | .invalidIpv4 => "invalid IPv4 address"
  | .invalidIpv6 => "invalid IPv6 address"

inductive Host where
  | empty
  | domain (name : String)
  | ipv4 (address : Nat)
  | ipv6 (pieces : List Nat)
deriving DecidableEq

namespace Host

private def decimal (n : Nat) : String := String.ofList (Nat.toDigits 10 n)

private def hexText (n : Nat) : String := String.ofList (Nat.toDigits 16 n)

/-- The first longest run of at least two zero pieces, as its start and length. -/
private def longestZeros (pieces : List Nat) : Option (Nat × Nat) :=
  let runs := (List.range pieces.length).map fun i =>
    (i, ((pieces.drop i).takeWhile (· = 0)).length)
  let best := runs.foldl (fun acc r => if acc.2 < r.2 then r else acc) (0, 1)
  if 1 < best.2 then some best else none

private def ipv6Text (pieces : List Nat) : String :=
  match longestZeros pieces with
  | none => ":".intercalate (pieces.map hexText)
  | some (start, size) =>
    ":".intercalate ((pieces.take start).map hexText) ++ "::" ++
      ":".intercalate ((pieces.drop (start + size)).map hexText)

def text : Host → String
  | .empty => ""
  | .domain name => name
  | .ipv4 a =>
    ".".intercalate ([a >>> 24 % 256, a >>> 16 % 256, a >>> 8 % 256, a % 256].map decimal)
  | .ipv6 pieces => "[" ++ ipv6Text pieces ++ "]"

private def splitOn (c : Char) (s : List Char) : List (List Char) :=
  s.foldr (fun d acc =>
    if d = c then [] :: acc
    else match acc with
      | [] => [[d]]
      | piece :: more => (d :: piece) :: more) [[]]

private def digitValue? (radix : Nat) (c : Char) : Option Nat :=
  let v :=
    if '0' ≤ c ∧ c ≤ '9' then c.toNat - 48
    else if 'a' ≤ c ∧ c ≤ 'f' then c.toNat - 87
    else if 'A' ≤ c ∧ c ≤ 'F' then c.toNat - 55
    else 99
  if v < radix then some v else none

private def number? (radix : Nat) (s : List Char) : Option Nat :=
  s.foldlM (fun acc c => (digitValue? radix c).map (acc * radix + ·)) 0

/-- A part of a dotted address: decimal, octal after `0`, hexadecimal after `0x`. -/
private def ipv4Part? : List Char → Option Nat
  | [] => none
  | '0' :: 'x' :: rest | '0' :: 'X' :: rest => number? 16 rest
  | '0' :: c :: rest => number? 8 (c :: rest)
  | s => number? 10 s

private def dotParts (s : List Char) : List (List Char) :=
  let parts := splitOn '.' s
  match parts.reverse with
  | [] :: (p :: more) => (p :: more).reverse
  | _ => parts

/-- Whether the last label is a number, so that the whole must be an address. -/
private def endsInNumber (s : List Char) : Bool :=
  match (dotParts s).getLast? with
  | none => false
  | some last =>
    if last ≠ [] ∧ last.all (fun c => '0' ≤ c && c ≤ '9') then true
    else match last with
      | '0' :: 'x' :: rest | '0' :: 'X' :: rest => (number? 16 rest).isSome
      | _ => false

private def ipv4? (s : List Char) : Option Nat := do
  let parts := dotParts s
  if 4 < parts.length then none
  else
    let values ← parts.mapM ipv4Part?
    let last ← values.getLast?
    let front := values.dropLast
    if front.any (255 < ·) then none
    else if Nat.pow 256 (5 - values.length) ≤ last then none
    else some (front.zipIdx.foldl (fun acc (v, i) => acc + v * Nat.pow 256 (3 - i)) last)

/-- The two pieces of a dotted address at the end of a longer one. -/
private def dottedTail? (s : List Char) : Option (List Nat) := do
  let parts := splitOn '.' s
  if parts.length ≠ 4 then none
  else
    let values ← parts.mapM fun p =>
      match p with
      | [] => none
      | '0' :: _ :: _ => none
      | p => (number? 10 p).filter (· ≤ 255)
    match values with
    | [a, b, c, d] => some [a * 256 + b, c * 256 + d]
    | _ => none

private def pieces? (parts : List (List Char)) : Option (List Nat) :=
  match parts.reverse with
  | [] => some []
  | last :: front => do
    let front ← front.reverse.mapM piece?
    if last.contains '.' then
      let tail ← dottedTail? last
      some (front ++ tail)
    else
      let tail ← piece? last
      some (front ++ [tail])
where
  piece? (p : List Char) : Option Nat :=
    if p = [] ∨ 4 < p.length then none else number? 16 p

/-- Splits at the first double colon. -/
private def splitGap (seen : List Char) : List Char → Option (List Char × List Char)
  | ':' :: ':' :: rest => some (seen.reverse, rest)
  | c :: rest => splitGap (c :: seen) rest
  | [] => none

private def ipv6? (s : List Char) : Option (List Nat) :=
  match splitGap [] s with
  | none => (pieces? (splitOn ':' s)).filter (·.length = 8)
  | some (before, after) => do
    let parts := fun l => if l = [] then [] else splitOn ':' l
    if before.contains '.' then none
    else
      let front ← pieces? (parts before)
      let back ← pieces? (parts after)
      if 7 < front.length + back.length then none
      else some (front ++ List.replicate (8 - front.length - back.length) 0 ++ back)

private def lower (c : Char) : Char :=
  if ('A' ≤ c ∧ c ≤ 'Z') ∨ (0xC0 ≤ c.toNat ∧ c.toNat ≤ 0xDE ∧ c.toNat ≠ 0xD7)
      ∨ (0x391 ≤ c.toNat ∧ c.toNat ≤ 0x3A9) ∨ (0x410 ≤ c.toNat ∧ c.toNat ≤ 0x42F) then
    Char.ofNat (c.toNat + 32)
  else c

/-- A character of a domain name in its usual form: letters in lower case, wide forms as the plain ones,
wide full stops as a full stop, and nothing for what is not to be seen. -/
private def usual (c : Char) : List Char :=
  if [0xAD, 0x200B, 0x2060, 0xFEFF].contains c.toNat then []
  else if c.toNat = 0x3002 ∨ c.toNat = 0xFF61 then ['.']
  else if 0xFF01 ≤ c.toNat ∧ c.toNat ≤ 0xFF5E then [lower (Char.ofNat (c.toNat - 0xFEE0))]
  else [lower c]

private def punycodeDigit (n : Nat) : Char :=
  if n < 26 then Char.ofNat (97 + n) else Char.ofNat (22 + n)

private def punycodeAdapt (delta points : Nat) (first : Bool) : Nat :=
  let delta := if first then delta / 700 else delta / 2
  let delta := delta + delta / points
  go 20 delta 0
where
  go : Nat → Nat → Nat → Nat
    | 0, _, k => k
    | fuel + 1, delta, k =>
      if 455 < delta then go fuel (delta / 35) (k + 36) else k + 36 * delta / (delta + 38)

private def punycodeNumber : Nat → Nat → Nat → Nat → List Char
  | 0, _, _, _ => []
  | fuel + 1, q, k, bias =>
    let t := if k ≤ bias then 1 else if bias + 26 ≤ k then 26 else k - bias
    if q < t then [punycodeDigit q]
    else punycodeDigit (t + (q - t) % (36 - t)) :: punycodeNumber fuel ((q - t) / (36 - t)) (k + 36) bias

private def punycodeStep (code : Nat) (state : Nat × Nat × Nat × Bool × List Char) (c : Char) :
    Nat × Nat × Nat × Bool × List Char :=
  let (delta, handled, bias, first, out) := state
  if c.toNat < code then (delta + 1, handled, bias, first, out)
  else if c.toNat = code then
    let digits := punycodeNumber 20 delta 36 bias
    (0, handled + 1, punycodeAdapt delta (handled + 1) first, false, out ++ digits)
  else state

private def punycodeRest (label : List Char) :
    Nat → Nat → Nat → Nat → Nat → Bool → List Char → List Char
  | 0, _, _, _, _, _, out => out
  | fuel + 1, n, delta, handled, bias, first, out =>
    match (label.filter (n ≤ ·.toNat)).map Char.toNat with
    | [] => out
    | c :: more =>
      let m := more.foldl min c
      let delta := delta + (m - n) * (handled + 1)
      let (delta, handled, bias, first, out) :=
        label.foldl (punycodeStep m) (delta, handled, bias, first, out)
      punycodeRest label fuel (m + 1) (delta + 1) handled bias first out

/-- A label in ASCII: others than ASCII are encoded after `xn--`. -/
private def asciiLabel (label : List Char) : List Char :=
  if label.all (·.toNat < 128) then label
  else
    let basic := label.filter (·.toNat < 128)
    let start := if basic = [] then [] else basic ++ ['-']
    ['x', 'n', '-', '-'] ++
      punycodeRest label label.length 128 0 basic.length 72 true start

private def isForbidden (c : Char) : Bool :=
  c.toNat ≤ 0x20 || c.toNat = 0x7F ||
    ['%', '#', '/', ':', '<', '>', '?', '@', '[', '\\', ']', '^', '|'].contains c

private def bracketed? (s : List Char) : Option (Except Error Host) :=
  match s with
  | '[' :: rest =>
    match rest.reverse with
    | ']' :: inner =>
      match ipv6? inner.reverse with
      | some pieces => some (.ok (.ipv6 pieces))
      | none => some (.error .invalidIpv6)
    | _ => some (.error .invalidIpv6)
  | _ => none

/-- The host of a URL of a known kind: a domain name in lower case, or an address. -/
def parse (s : List Char) : Except Error Host :=
  match bracketed? s with
  | some r => r
  | none =>
    match Utf8.decode? (decodeBytes (Utf8.encode (String.ofList s))) with
    | none => .error .invalidDomain
    | some decoded =>
      let name := decoded.toList.flatMap usual
      if name.any isForbidden then .error .invalidDomain
      else
        let ascii := (['.'] : List Char).intercalate ((splitOn '.' name).map asciiLabel)
        if ascii = [] then .error .emptyHost
        else if endsInNumber ascii then
          match ipv4? ascii with
          | some a => .ok (.ipv4 a)
          | none => .error .invalidIpv4
        else .ok (.domain (String.ofList ascii))

/-- The host of any other URL: a text that is kept as it is. -/
def parseOpaque (s : List Char) : Except Error Host :=
  match bracketed? s with
  | some r => r
  | none =>
    let forbidden := [Char.ofNat 0, '\t', '\n', '\r', ' ', '#', '/', ':', '<', '>', '?', '@', '[', '\\', ']',
      '^', '|']
    if s.any forbidden.contains then .error .invalidDomainCharacter
    else if s = [] then .ok .empty
    else .ok (.domain (encodeWith [] s))

end Host

end LinterClient.Url
