/-!
Dates and times as TOML writes them, with a zone or without.

A fraction of a second is kept to nine digits. Seconds may be left out.
-/

namespace LinterClient.Toml

structure Date where
  year : Nat
  month : Nat
  day : Nat
deriving DecidableEq

structure Time where
  hour : Nat
  minute : Nat
  second : Option Nat
  nanosecond : Option Nat
deriving DecidableEq

/-- The distance of a local time from universal time. -/
inductive Offset where
  | zulu
  | ahead (minutes : Int)
deriving DecidableEq

inductive Datetime where
  | date (d : Date)
  | time (t : Time)
  | both (d : Date) (t : Time) (offset : Option Offset)
deriving DecidableEq

def digit? (c : Char) : Option Nat :=
  if c.isDigit then some (c.toNat - 48) else none

/-- A number of exactly so many digits. -/
def fixed (count : Nat) (s : List Char) : Option (Nat × List Char) :=
  let digits := (s.take count).filterMap digit?
  if digits.length = count then some (digits.foldl (fun n d => 10 * n + d) 0, s.drop count) else none

def expect (c : Char) : List Char → Option (List Char)
  | [] => none
  | d :: rest => if c = d then some rest else none

def pad (width n : Nat) : String :=
  let text := toString n
  String.ofList (List.replicate (width - text.length) '0') ++ text

namespace Date

def isLeap (year : Nat) : Bool :=
  year % 4 = 0 && (year % 100 ≠ 0 || year % 400 = 0)

def daysIn (year month : Nat) : Nat :=
  if month = 2 then if isLeap year then 29 else 28
  else if month = 4 ∨ month = 6 ∨ month = 9 ∨ month = 11 then 30
  else 31

def IsValid (d : Date) : Prop :=
  1 ≤ d.month ∧ d.month ≤ 12 ∧ 1 ≤ d.day ∧ d.day ≤ daysIn d.year d.month

instance (d : Date) : Decidable d.IsValid :=
  inferInstanceAs (Decidable (_ ∧ _))

def text (d : Date) : String :=
  pad 4 d.year ++ "-" ++ pad 2 d.month ++ "-" ++ pad 2 d.day

def read? (s : List Char) : Option (Date × List Char) := do
  let (year, s) ← fixed 4 s
  let (month, s) ← fixed 2 (← expect '-' s)
  let (day, s) ← fixed 2 (← expect '-' s)
  let d : Date := ⟨year, month, day⟩
  if d.IsValid then some (d, s) else none

end Date

namespace Time

def IsValid (t : Time) : Prop :=
  t.hour ≤ 23 ∧ t.minute ≤ 59 ∧ t.second.getD 0 ≤ 60

instance (t : Time) : Decidable t.IsValid :=
  inferInstanceAs (Decidable (_ ∧ _))

/-- The digits after the point, without zeros at the end but with at least one. -/
def fractionText (n : Nat) : String :=
  let digits := ((pad 9 n).toList.reverse.dropWhile (· = '0')).reverse
  if digits.isEmpty then "0" else String.ofList digits

def text (t : Time) : String :=
  pad 2 t.hour ++ ":" ++ pad 2 t.minute
    ++ (match t.second with
      | some n => ":" ++ pad 2 n
      | none => "")
    ++ (match t.nanosecond with
      | some n => "." ++ fractionText n
      | none => "")

def fraction? (s : List Char) : Option (Option Nat × List Char) :=
  match s with
  | '.' :: rest =>
    let digits := (rest.takeWhile Char.isDigit).filterMap digit?
    if digits.isEmpty then none
    else
      let nine := (digits ++ List.replicate 9 0).take 9
      some (some (nine.foldl (fun n d => 10 * n + d) 0), rest.dropWhile Char.isDigit)
  | _ => some (none, s)

def second? (s : List Char) : Option (Option Nat × Option Nat × List Char) :=
  match s with
  | ':' :: rest => do
    let (n, rest) ← fixed 2 rest
    let (f, rest) ← fraction? rest
    some (some n, f, rest)
  | _ => some (none, none, s)

def read? (s : List Char) : Option (Time × List Char) := do
  let (hour, s) ← fixed 2 s
  let (minute, s) ← fixed 2 (← expect ':' s)
  let (second, nanosecond, s) ← second? s
  let t : Time := ⟨hour, minute, second, nanosecond⟩
  if t.IsValid then some (t, s) else none

end Time

namespace Offset

def text : Offset → String
  | .zulu => "Z"
  | .ahead n =>
    (if n < 0 then "-" else "+") ++ pad 2 (n.natAbs / 60) ++ ":" ++ pad 2 (n.natAbs % 60)

def distance? (s : List Char) : Option (Nat × List Char) := do
  let (hours, s) ← fixed 2 s
  let (minutes, s) ← fixed 2 (← expect ':' s)
  if hours ≤ 23 ∧ minutes ≤ 59 then some (60 * hours + minutes, s) else none

def read? (s : List Char) : Option (Option Offset × List Char) :=
  match s with
  | 'Z' :: rest | 'z' :: rest => some (some .zulu, rest)
  | '+' :: rest => (distance? rest).map fun (n, rest) => (some (.ahead n), rest)
  | '-' :: rest => (distance? rest).map fun (n, rest) => (some (.ahead (-n)), rest)
  | _ => some (none, s)

end Offset

namespace Datetime

def text : Datetime → String
  | .date d => d.text
  | .time t => t.text
  | .both d t offset => d.text ++ "T" ++ t.text ++ (offset.map Offset.text).getD ""

/-- What separates a date from a time. -/
def isSeparator (c : Char) : Bool :=
  c = 'T' || c = 't' || c = ' '

def afterDate? (d : Date) : List Char → Option Datetime
  | [] => some (.date d)
  | c :: rest =>
    if isSeparator c then do
      let (t, rest) ← Time.read? rest
      let (offset, rest) ← Offset.read? rest
      if rest.isEmpty then some (.both d t offset) else none
    else none

/-- The date or time that is the whole text. -/
def read? (s : List Char) : Option Datetime :=
  match Date.read? s with
  | some (d, rest) => afterDate? d rest
  | none => do
    let (t, rest) ← Time.read? s
    if rest.isEmpty then some (.time t) else none

end Datetime

end LinterClient.Toml
