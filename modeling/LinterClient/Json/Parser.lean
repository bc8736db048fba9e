import LinterClient.Json.Basic

/-!
Reading JSON text.

Whole numbers of 64 bits are kept exactly; all others become binary64 values through at most twenty
significant digits and one multiplication or division for each group of powers of ten.
-/

namespace LinterClient.Json

private def isBlank (c : Char) : Bool :=
  c = ' ' || c = '\n' || c = '\t' || c = '\r'

def skipBlanks (s : List Char) : List Char :=
  s.dropWhile isBlank

private def digit? (c : Char) : Option Nat :=
  if '0' ≤ c ∧ c ≤ '9' then some (c.toNat - 48) else none

private def hexDigit? (c : Char) : Option Nat :=
  if '0' ≤ c ∧ c ≤ '9' then some (c.toNat - 48)
  else if 'a' ≤ c ∧ c ≤ 'f' then some (c.toNat - 87)
  else if 'A' ≤ c ∧ c ≤ 'F' then some (c.toNat - 55)
  else none

/-- A magnitude times a power of ten, scaled in steps of at most `10 ^ 308`; none when it overflows. -/
def scaleByTen : Nat → Binary64 → Int → Option Binary64
  | 0, x, _ => some x
  | fuel + 1, x, exponent =>
    if exponent.natAbs ≤ 308 then
      let power := Binary64.ofNat (Nat.pow 10 exponent.natAbs)
      if 0 ≤ exponent then
        let product := x.mulMagnitude power
        if product.isFinite then some product else none
      else some (x.divMagnitude power)
    else if x.isZero then some x
    else if 0 ≤ exponent then none
    else scaleByTen fuel (x.divMagnitude (Binary64.ofNat (Nat.pow 10 308))) (exponent + 308)

private def signed (negative : Bool) (x : Binary64) : Binary64 :=
  if negative then x.negate else x

private def float (negative : Bool) (significand : Nat) (exponent : Int) : Option Number := do
  let x ← scaleByTen 8 (Binary64.ofNat significand) (max exponent (-2000))
  let x := signed negative x
  if h : x.isFinite = true then some (.float x h) else none

/-- Digits are taken while the significand fits in 64 bits; the rest is dropped. -/
private def takeDigits (significand : Nat) : List Char → Nat × Nat × List Char
  | [] => (significand, 0, [])
  | c :: rest =>
    match digit? c with
    | none => (significand, 0, c :: rest)
    | some d =>
      if 10 * significand + d < 1 <<< 64 then
        let (s, n, r) := takeDigits (10 * significand + d) rest
        (s, n + 1, r)
      else (significand, 0, c :: rest)

private def dropDigits (s : List Char) : Nat × List Char :=
  ((s.takeWhile fun c => (digit? c).isSome).length, s.dropWhile fun c => (digit? c).isSome)

private def exponentDigits (value : Nat) : List Char → Nat × List Char
  | [] => (value, [])
  | c :: rest =>
    match digit? c with
    | none => (value, c :: rest)
    | some d => exponentDigits (10 * value + d) rest

/-- The exponent part after its letter. An exponent of 32 bits or more means zero or an error. -/
private def exponentPart (negative : Bool) (significand : Nat) (start : Int) (s : List Char) :
    Option (Number × List Char) := do
  let (down, s) := match s with
    | '+' :: rest => (false, rest)
    | '-' :: rest => (true, rest)
    | _ => (false, s)
  match s with
  | [] => none
  | c :: _ =>
    if (digit? c).isNone then none
    else
      let (value, rest) := exponentDigits 0 s
      if value < 1 <<< 31 then
        let n ← float negative significand (if down then start - value else start + value)
        some (n, rest)
      else if significand ≠ 0 && !down then none
      else
        let n ← float negative 0 0
        some (n, rest)

private def afterFraction (negative : Bool) (significand : Nat) (exponent : Int) (s : List Char) :
    Option (Number × List Char) :=
  match s with
  | 'e' :: rest | 'E' :: rest => exponentPart negative significand exponent rest
  | _ => (float negative significand exponent).map (·, s)

/-- The fraction after its point; at least one digit is required unless the significand is full. -/
private def fractionPart (negative : Bool) (significand : Nat) (start : Int) (s : List Char) :
    Option (Number × List Char) :=
  match s with
  | [] => none
  | c :: _ =>
    if (digit? c).isNone then none
    else
      let (value, count, rest) := takeDigits significand s
      afterFraction negative value (start - count) (dropDigits rest).2

private def afterInteger (negative : Bool) (significand : Nat) (s : List Char) :
    Option (Number × List Char) :=
  match s with
  | '.' :: rest => fractionPart negative significand 0 rest
  | 'e' :: rest | 'E' :: rest => exponentPart negative significand 0 rest
  | _ =>
    if negative then
      if h : InRange (-(significand : Int)) ∧ significand ≠ 0 then
        some (.int (-(significand : Int)) h.1, s)
      else (float true significand 0).map (·, s)
    else if h : InRange (significand : Int) then some (.int significand h, s)
    else none

/-- A whole number too large for 64 bits: its further digits only scale it. -/
private def longInteger (negative : Bool) (significand : Nat) (s : List Char) :
    Option (Number × List Char) :=
  let (count, rest) := dropDigits s
  match rest with
  | '.' :: rest => fractionPart negative significand count rest
  | _ => afterFraction negative significand count rest

private def number (negative : Bool) (s : List Char) : Option (Number × List Char) :=
  match s with
  | [] => none
  | '0' :: rest =>
    match rest with
    | [] => afterInteger negative 0 rest
    | c :: _ => if (digit? c).isSome then none else afterInteger negative 0 rest
  | c :: _ =>
    if (digit? c).isNone then none
    else
      let (value, _, rest) := takeDigits 0 s
      match rest with
      | [] => afterInteger negative value rest
      | c :: _ =>
        if (digit? c).isSome then longInteger negative value rest
        else afterInteger negative value rest

private def hex4 : List Char → Option (Nat × List Char)
  | a :: b :: c :: d :: rest => do
    let a ← hexDigit? a
    let b ← hexDigit? b
    let c ← hexDigit? c
    let d ← hexDigit? d
    some (((a * 16 + b) * 16 + c) * 16 + d, rest)
  | _ => none

/-- The character of an escape after its backslash; two halves of a surrogate pair form one. -/
private def escape : List Char → Option (Char × List Char)
  | '"' :: rest => some ('"', rest)
  | '\\' :: rest => some ('\\', rest)
  | '/' :: rest => some ('/', rest)
  | 'b' :: rest => some (Char.ofNat 8, rest)
  | 'f' :: rest => some (Char.ofNat 12, rest)
  | 'n' :: rest => some ('\n', rest)
  | 'r' :: rest => some ('\r', rest)
  | 't' :: rest => some ('\t', rest)
  | 'u' :: rest => do
    let (high, rest) ← hex4 rest
    if 0xDC00 ≤ high ∧ high ≤ 0xDFFF then none
    else if 0xD800 ≤ high ∧ high ≤ 0xDBFF then
      match rest with
      | '\\' :: 'u' :: rest =>
        let (low, rest) ← hex4 rest
        if 0xDC00 ≤ low ∧ low ≤ 0xDFFF then
          some (Char.ofNat ((high - 0xD800) * 0x400 + (low - 0xDC00) + 0x10000), rest)
        else none
      | _ => none
    else some (Char.ofNat high, rest)
  | _ => none

/-- The rest of a quoted text after its opening quote. -/
private def quoted : (fuel : Nat) → (seen : List Char) → List Char → Option (String × List Char)
  | 0, _, _ => none
  | _ + 1, _, [] => none
  | fuel + 1, seen, c :: rest =>
    if c = '"' then some (String.ofList seen.reverse, rest)
    else if c = '\\' then do
      let (e, rest) ← escape rest
      quoted fuel (e :: seen) rest
    else if c.toNat < 32 then none
    else quoted fuel (c :: seen) rest

private def word (expected : List Char) (value : Json) (s : List Char) :
    Option (Json × List Char) :=
  if expected.isPrefixOf s then some (value, s.drop expected.length) else none

mutual

/-- A value at the start of the text; `depth` bounds how far arrays and objects nest. -/
private def value : (fuel depth : Nat) → List Char → Option (Json × List Char)
  | 0, _, _ => none
  | fuel + 1, depth, s =>
    match skipBlanks s with
    | [] => none
    | 'n' :: rest => word ['u', 'l', 'l'] .null rest
    | 't' :: rest => word ['r', 'u', 'e'] (.bool true) rest
    | 'f' :: rest => word ['a', 'l', 's', 'e'] (.bool false) rest
    | '-' :: rest => (number true rest).map fun p => (.num p.1, p.2)
    | '"' :: rest => (quoted fuel [] rest).map fun p => (.str p.1, p.2)
    | '[' :: rest =>
      if depth ≤ 1 then none
      else match skipBlanks rest with
        | ']' :: rest => some (.arr [], rest)
        | rest => items fuel (depth - 1) [] rest
    | '\x7b' :: rest =>
      if depth ≤ 1 then none
      else match skipBlanks rest with
        | '\x7d' :: rest => some (.obj [], rest)
        | rest => members fuel (depth - 1) [] rest
    | c :: rest => (number false (c :: rest)).map fun p => (.num p.1, p.2)

private def items : (fuel depth : Nat) → List Json → List Char → Option (Json × List Char)
  | 0, _, _, _ => none
  | fuel + 1, depth, seen, s =>
    match value fuel depth s with
    | none => none
    | some (v, rest) =>
      match skipBlanks rest with
      | ',' :: rest => items fuel depth (v :: seen) rest
      | ']' :: rest => some (.arr (v :: seen).reverse, rest)
      | _ => none

private def members : (fuel depth : Nat) → Members → List Char → Option (Json × List Char)
  | 0, _, _, _ => none
  | fuel + 1, depth, seen, s =>
    match skipBlanks s with
    | '"' :: rest =>
      match quoted fuel [] rest with
      | none => none
      | some (key, rest) =>
        match skipBlanks rest with
        | ':' :: rest =>
          match value fuel depth rest with
          | none => none
          | some (v, rest) =>
            match skipBlanks rest with
            | ',' :: rest => members fuel depth (Members.insert key v seen) rest
            | '\x7d' :: rest => some (.obj (Members.insert key v seen), rest)
            | _ => none
        | _ => none
    | _ => none

end

/-- The value written in the whole text, if it is JSON that nests fewer than 128 deep. -/
def parse (s : String) : Option Json :=
  let chars := s.toList
  match value (2 * chars.length + 2) 128 chars with
  | some (v, rest) => if (skipBlanks rest).isEmpty then some v else none
  | none => none

def parseBytes (bytes : List UInt8) : Option Json :=
  (String.fromUTF8? ⟨bytes.toArray⟩).bind parse

end LinterClient.Json
