import LinterClient.Json.Basic
import LinterClient.Binary64.Shortest
import LinterClient.Text.Quoted

/-!
Reading typed values out of JSON.

A record is read from an object, where unknown members are ignored, or from an array of its fields in
order. Errors are reported in the order in which the members stand; a missing field comes last.
-/

namespace LinterClient.Json

/-- Why a JSON value is not of the wanted type. -/
inductive DecodeError where
  | invalidType (found : Json) (expected : String)
  | invalidValue (found : Json) (expected : String)
  | invalidLength (length : Nat) (expected : String)
  | missingField (name : String)
  | unknownVariant (name : String) (expected : List String)
  | noVariant (type : String)
  | rejected (reason : String)
deriving DecidableEq

namespace DecodeError

/-- How a value is named in a message. -/
def describe : Json → String
  | .null => "null"
  | .bool b => "boolean `" ++ (if b then "true" else "false") ++ "`"
  | .num (.int n _) => "integer `" ++ toString n ++ "`"
  | .num (.float x _) => "floating point `" ++ x.positional ++ "`"
  | .str s => "string " ++ Text.quoted s
  | .arr _ => "sequence"
  | .obj _ => "map"

private def alternatives (names : List String) : String :=
  match names.map fun n => "`" ++ n ++ "`" with
  | [] => "there are no variants"
  | [a] => "expected " ++ a
  | [a, b] => "expected " ++ a ++ " or " ++ b
  | l => "expected one of " ++ ", ".intercalate l

def message : DecodeError → String
  | .invalidType found expected => "invalid type: " ++ describe found ++ ", expected " ++ expected
  | .invalidValue found expected => "invalid value: " ++ describe found ++ ", expected " ++ expected
  | .invalidLength n expected => "invalid length " ++ toString n ++ ", expected " ++ expected
  | .missingField name => "missing field `" ++ name ++ "`"
  | .unknownVariant name expected => "unknown variant `" ++ name ++ "`, " ++ alternatives expected
  | .noVariant type => "data did not match any variant of untagged enum " ++ type
  | .rejected reason => reason

end DecodeError

abbrev Decoder (α : Type) := Json → Except DecodeError α

namespace Decoder

def any : Decoder Json := .ok

def bool : Decoder Bool
  | .bool b => .ok b
  | v => .error (.invalidType v "a boolean")

def string : Decoder String
  | .str s => .ok s
  | v => .error (.invalidType v "a string")

/-- A path is a text, named so in messages. -/
def path : Decoder String
  | .str s => .ok s
  | v => .error (.invalidType v "path string")

/-- A whole number between two bounds. -/
def int (low high : Int) (expected : String) : Decoder Int
  | .num (.int n h) =>
    if low ≤ n ∧ n ≤ high then .ok n else .error (.invalidValue (.num (.int n h)) expected)
  | v => .error (.invalidType v expected)

def int64 : Decoder Int := int (-0x8000000000000000) 0x7FFFFFFFFFFFFFFF "i64"

def byte : Decoder Nat := fun v => (int 0 255 "u8" v).map Int.toNat

/-- `null` is the absent value. -/
def nullable (d : Decoder α) : Decoder (Option α)
  | .null => .ok none
  | v => (d v).map some

def list (d : Decoder α) : Decoder (List α)
  | .arr items => items.mapM d
  | v => .error (.invalidType v "a sequence")

/-- An object read as its members. -/
def members : Decoder Members
  | .obj m => .ok m
  | v => .error (.invalidType v "a map")

/-- One of several names, alone or as the only member of an object, with the value `null`. -/
def variant (names : List (String × α)) : Decoder α
  | .str s => named s
  | .obj [(s, .null)] => named s
  | .obj [(s, v)] => named s >>= fun _ => .error (.invalidType v "unit")
  | .obj m => .error (.invalidValue (.obj m) "map with a single key")
  | v => .error (.invalidType v "string or map")
where
  named (s : String) : Except DecodeError α :=
    match names.lookup s with
    | some a => .ok a
    | none => .error (.unknownVariant s (names.map (·.1)))

def firstOf (type : String) : List (Decoder α) → Decoder α
  | [], _ => .error (.noVariant type)
  | d :: rest, v =>
    match d v with
    | .ok a => .ok a
    | .error _ => firstOf type rest v

end Decoder

/-- What is known of a field before its value is used. -/
structure FieldRule where
  name : String
  /-- Whether a shorter array may leave the field out. -/
  hasDefault : Bool
  check : Json → Except DecodeError Unit

/-- The fields of a record, in order, and the record they form. -/
structure Fields (α : Type) where
  rules : List FieldRule
  build : Members → Except DecodeError α

namespace Fields

def pure (a : α) : Fields α :=
  ⟨[], fun _ => .ok a⟩

def seq (f : Fields (α → β)) (x : Unit → Fields α) : Fields β :=
  ⟨f.rules ++ (x ()).rules, fun m => do
    let g ← f.build m
    let a ← (x ()).build m
    .ok (g a)⟩

instance : Applicative Fields where
  pure := Fields.pure
  seq := Fields.seq

def checkWith (d : Decoder α) (v : Json) : Except DecodeError Unit :=
  (d v).map fun _ => ()

def required (name : String) (d : Decoder α) : Fields α :=
  ⟨[⟨name, false, checkWith d⟩], fun m =>
    match Members.get? m name with
    | some v => d v
    | none => .error (.missingField name)⟩

/-- A field with a value for the case that it is missing. -/
def withDefault (name : String) (d : Decoder α) (default : α) : Fields α :=
  ⟨[⟨name, true, checkWith d⟩], fun m =>
    match Members.get? m name with
    | some v => d v
    | none => .ok default⟩

/-- A field that may be missing or `null`; an array must still hold it. -/
def nullable (name : String) (d : Decoder α) : Fields (Option α) :=
  ⟨[⟨name, false, checkWith (Decoder.nullable d)⟩], fun m =>
    match Members.get? m name with
    | some v => Decoder.nullable d v
    | none => .ok none⟩

/-- A field that may be missing or `null`, also in an array. -/
def optional (name : String) (d : Decoder α) : Fields (Option α) :=
  withDefault name (Decoder.nullable d) none

def checkMembers (rules : List FieldRule) : Members → Except DecodeError Unit
  | [] => .ok ()
  | (k, v) :: rest =>
    match rules.find? fun r => r.name = k with
    | some r => r.check v >>= fun _ => checkMembers rules rest
    | none => checkMembers rules rest

/-- The members that an array stands for. -/
private def pairItems (expected : String) (total : Nat) :
    (index : Nat) → List FieldRule → List Json → Except DecodeError Members
  | _, [], [] => .ok []
  | _, [], _ :: _ => .error (.invalidLength total "fewer elements in array")
  | i, r :: rules, v :: items => do
    r.check v
    let rest ← pairItems expected total (i + 1) rules items
    .ok ((r.name, v) :: rest)
  | i, r :: rules, [] =>
    if r.hasDefault then pairItems expected total (i + 1) rules []
    else .error (.invalidLength i expected)

private def elements (n : Nat) : String :=
  toString n ++ (if n = 1 then " element" else " elements")

/-- The record read from an object only. -/
def decodeObject (f : Fields α) (type : String) : Decoder α
  | .obj m => do
    checkMembers f.rules m
    f.build m
  | v => .error (.invalidType v ("struct " ++ type))

/-- The record read from an object or an array. -/
def decode (f : Fields α) (type : String) : Decoder α
  | .obj m => do
    checkMembers f.rules m
    f.build m
  | .arr items => do
    let expected := "struct " ++ type ++ " with " ++ elements f.rules.length
    let m ← pairItems expected items.length 0 f.rules items
    f.build m
  | v => .error (.invalidType v ("struct " ++ type))

/-- The record read from an array only. -/
def decodeTuple (f : Fields α) (type : String) : Decoder α
  | .arr items => do
    let expected := "tuple struct " ++ type ++ " with " ++ elements f.rules.length
    let m ← pairItems expected items.length 0 f.rules items
    f.build m
  | v => .error (.invalidType v ("tuple struct " ++ type))

end Fields

end LinterClient.Json
