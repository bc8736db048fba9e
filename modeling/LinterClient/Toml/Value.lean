import LinterClient.Binary64.Shortest
import LinterClient.Json.Basic
import LinterClient.Toml.Datetime
import LinterClient.Toml.Quoted

/-!
TOML values, the JSON values they stand for, and their text on one line.

TOML has no `null`; JSON has no dates and no infinite numbers. Dates become texts, and members that
are `null` are left out.
-/

namespace LinterClient.Toml

inductive Value where
  | str (val : String)
  | int (val : Int)
  | float (val : Binary64)
  | bool (val : Bool)
  | datetime (val : Datetime)
  | array (items : List Value)
  | table (members : List (String × Value))

namespace Value

instance : Inhabited Value := ⟨.bool false⟩

mutual

/-- The JSON value, unless a number in it is infinite or NaN. -/
def toJson? : Value → Option Json
  | .str s => some (.str s)
  | .int n => Json.ofInt? n
  | .float x => if h : x.isFinite = true then some (.num (.float x h)) else none
  | .bool b => some (.bool b)
  | .datetime d => some (.str d.text)
  | .array items => (itemsToJson? items).map .arr
  | .table members => (membersToJson? members).map Json.ofMembers

def itemsToJson? : List Value → Option (List Json)
  | [] => some []
  | v :: rest => do
    let v ← toJson? v
    let rest ← itemsToJson? rest
    some (v :: rest)

def membersToJson? : List (String × Value) → Option Json.Members
  | [] => some []
  | (k, v) :: rest => do
    let v ← toJson? v
    let rest ← membersToJson? rest
    some ((k, v) :: rest)

end

/-- A number; a whole one that needs all 64 bits for its magnitude is rounded. -/
def ofNumber : Json.Number → Value
  | .int n _ => if n ≤ 0x7FFFFFFFFFFFFFFF then .int n else .float (Binary64.ofNat n.toNat)
  | .float x _ => .float x

mutual

/-- The value of a JSON value, unless it is `null` or has `null` in an array. -/
def ofJson? : Json → Option Value
  | .null => none
  | .bool b => some (.bool b)
  | .num n => some (ofNumber n)
  | .str s => some (.str s)
  | .arr items => (ofItems? items).map .array
  | .obj members => (ofMembers? members).map .table

def ofItems? : List Json → Option (List Value)
  | [] => some []
  | v :: rest => do
    let v ← ofJson? v
    let rest ← ofItems? rest
    some (v :: rest)

def ofMembers? : List (String × Json) → Option (List (String × Value))
  | [] => some []
  | (_, .null) :: rest => ofMembers? rest
  | (k, v) :: rest => do
    let v ← ofJson? v
    let rest ← ofMembers? rest
    some ((k, v) :: rest)

end

def floatText (x : Binary64) : String :=
  if x.isFinite then x.positional
  else (if x.isNegative then "-" else "") ++ (if x.isNaN then "nan" else "inf")

mutual

def text : Value → String
  | .str s => Quoted.text s
  | .int n => toString n
  | .float x => floatText x
  | .bool b => if b then "true" else "false"
  | .datetime d => d.text
  | .array items => "[" ++ textItems true items ++ "]"
  | .table [] => "\x7b\x7d"
  | .table (m :: rest) => "\x7b" ++ textMembers true (m :: rest) ++ " \x7d"

def textItems (first : Bool) : List Value → String
  | [] => ""
  | v :: rest => (if first then "" else ", ") ++ text v ++ textItems false rest

def textMembers (first : Bool) : List (String × Value) → String
  | [] => ""
  | (k, v) :: rest =>
    (if first then " " else ", ") ++ Quoted.key k ++ " = " ++ text v ++ textMembers false rest

end

end Value

end LinterClient.Toml
