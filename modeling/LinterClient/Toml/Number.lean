import LinterClient.Binary64

/-!
Numbers as TOML writes them: decimal whole numbers with a sign, others by their base, and binary64
numbers. Single underscores may stand between digits.
-/

namespace LinterClient.Toml.Number

def digitOf? (base : Nat) (c : Char) : Option Nat :=
  let n :=
    if c.isDigit then c.toNat - 48
    else if 'a' ≤ c ∧ c ≤ 'z' then c.toNat - 87
    else if 'A' ≤ c ∧ c ≤ 'Z' then c.toNat - 55
    else base
  if n < base then some n else none

/-- The digits of a group: an underscore has a digit on each side. -/
def digits? (base : Nat) : List Char → Option (List Nat)
  | [] => none
  | [c] => (digitOf? base c).map fun n => [n]
  | c :: '_' :: rest => do
    let n ← digitOf? base c
    some (n :: (← digits? base rest))
  | c :: rest => do
    let n ← digitOf? base c
    some (n :: (← digits? base rest))

def ofDigits (base : Nat) (digits : List Nat) : Nat :=
  digits.foldl (fun n d => base * n + d) 0

def decimal? (s : List Char) : Option (List Nat) := do
  let digits ← digits? 10 s
  match digits with
  | 0 :: _ :: _ => none
  | _ => some digits

/-- A text without its sign, and whether that is a minus. -/
def unsigned : List Char → Bool × List Char
  | '+' :: rest => (false, rest)
  | '-' :: rest => (true, rest)
  | s => (false, s)

def whole? (s : List Char) : Option Int :=
  match s with
  | '0' :: 'x' :: rest => (digits? 16 rest).map fun d => (ofDigits 16 d : Int)
  | '0' :: 'o' :: rest => (digits? 8 rest).map fun d => (ofDigits 8 d : Int)
  | '0' :: 'b' :: rest => (digits? 2 rest).map fun d => (ofDigits 2 d : Int)
  | _ =>
    let (negative, s) := unsigned s
    (decimal? s).map fun d => if negative then -(ofDigits 10 d : Int) else ofDigits 10 d

/-- A whole number of 64 bits with a sign. -/
def int? (s : List Char) : Option Int :=
  (whole? s).filter fun n => -0x8000000000000000 ≤ n ∧ n ≤ 0x7FFFFFFFFFFFFFFF

/-- The part before a mark and, if it is there, the part after it. -/
def cut (isMark : Char → Bool) (s : List Char) : List Char × Option (List Char) :=
  (s.takeWhile fun c => !isMark c,
    match s.dropWhile fun c => !isMark c with
    | [] => none
    | _ :: rest => some rest)

def exponent? (s : List Char) : Option Int := do
  let (negative, s) := unsigned s
  let digits ← digits? 10 s
  some (if negative then -(ofDigits 10 digits : Int) else ofDigits 10 digits)

/-- The value nearest to `n * 10 ^ exponent`. Far out of range it is zero or infinite. -/
def scaled (n : Nat) (exponent : Int) : Binary64 :=
  if n = 0 then .zero
  else if 400 < exponent then .infinity
  else if exponent + (n.log2 + 1 : Nat) < -400 then .zero
  else .ofDecimal n exponent

def magnitude? (s : List Char) : Option Binary64 := do
  let (mantissa, power) := cut (fun c => c = 'e' || c = 'E') s
  let (front, behind) := cut (· = '.') mantissa
  if power = none ∧ behind = none then none
  else
    let front ← decimal? front
    let behind ← match behind with
      | some b => digits? 10 b
      | none => some []
    let power ← match power with
      | some p => exponent? p
      | none => some 0
    let x := scaled (ofDigits 10 (front ++ behind)) (power - behind.length)
    if x.isFinite then some x else none

/-- A binary64 number; finite ones must not be too large. -/
def float? (s : List Char) : Option Binary64 := do
  let (negative, s) := unsigned s
  let x ←
    if s = ['i', 'n', 'f'] then some .infinity
    else if s = ['n', 'a', 'n'] then some .nan
    else magnitude? s
  some (if negative then x.negate else x)

end LinterClient.Toml.Number
