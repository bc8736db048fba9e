import LinterClient.Json.Basic
import LinterClient.Binary64.Shortest

/-!
JSON text: a compact form on one line, and an indented form with two spaces a level.
-/

namespace LinterClient.Json

private def hexDigit (n : Nat) : Char :=
  if n < 10 then Char.ofNat (48 + n) else Char.ofNat (87 + n)

/-- A character inside a quoted text. Only quotes, backslashes and control characters are escaped. -/
def escapeChar (c : Char) : List Char :=
  if c = '"' then ['\\', '"']
  else if c = '\\' then ['\\', '\\']
  else if c = '\n' then ['\\', 'n']
  else if c = '\r' then ['\\', 'r']
  else if c = '\t' then ['\\', 't']
  else if c = Char.ofNat 8 then ['\\', 'b']
  else if c = Char.ofNat 12 then ['\\', 'f']
  else if c.toNat < 32 then ['\\', 'u', '0', '0', hexDigit (c.toNat / 16), hexDigit (c.toNat % 16)]
  else [c]

def quote (s : String) : String :=
  "\"" ++ String.ofList (s.toList.flatMap escapeChar) ++ "\""

def Number.text : Number → String
  | .int n _ => toString n
  | .float x _ => x.scientific

mutual

/-- The compact form. -/
def text : Json → String
  | .null => "null"
  | .bool b => if b then "true" else "false"
  | .num n => n.text
  | .str s => quote s
  | .arr items => "[" ++ textItems true items ++ "]"
  | .obj members => "\x7b" ++ textMembers true members ++ "\x7d"

private def textItems (first : Bool) : List Json → String
  | [] => ""
  | v :: rest => (if first then "" else ",") ++ text v ++ textItems false rest

private def textMembers (first : Bool) : List (String × Json) → String
  | [] => ""
  | (k, v) :: rest =>
    (if first then "" else ",") ++ quote k ++ ":" ++ text v ++ textMembers false rest

end

private def newline (level : Nat) : String :=
  "\n" ++ String.ofList (List.replicate (2 * level) ' ')

mutual

/-- The indented form below the given number of levels. -/
def prettyAt (level : Nat) : Json → String
  | .arr (v :: rest) => "[" ++ prettyItems (level + 1) true (v :: rest) ++ newline level ++ "]"
  | .obj (p :: rest) => "\x7b" ++ prettyMembers (level + 1) true (p :: rest) ++ newline level ++ "\x7d"
  | .arr [] => "[]"
  | .obj [] => "\x7b\x7d"
  | .null => text .null
  | .bool b => text (.bool b)
  | .num n => text (.num n)
  | .str s => text (.str s)

private def prettyItems (level : Nat) (first : Bool) : List Json → String
  | [] => ""
  | v :: rest =>
    (if first then "" else ",") ++ newline level ++ prettyAt level v ++ prettyItems level false rest

private def prettyMembers (level : Nat) (first : Bool) : List (String × Json) → String
  | [] => ""
  | (k, v) :: rest =>
    (if first then "" else ",") ++ newline level ++ quote k ++ ": " ++ prettyAt level v
      ++ prettyMembers level false rest

end

/-- The indented form. -/
def pretty (v : Json) : String :=
  prettyAt 0 v

end LinterClient.Json
