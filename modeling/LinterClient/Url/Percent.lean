import LinterClient.Text.Utf8

/-!
Percent-encoding: bytes outside a part's own set of characters are written as `%` and two digits.
-/

namespace LinterClient.Url

/-- Characters that are encoded everywhere: control characters and all beyond ASCII. -/
def isControl (c : Char) : Bool :=
  c.toNat < 0x20 || 0x7F ≤ c.toNat

def hexUpper (n : Nat) : Char :=
  if n < 10 then Char.ofNat (48 + n) else Char.ofNat (55 + n)

def encodeByte (b : UInt8) : List Char :=
  ['%', hexUpper (b.toNat / 16), hexUpper (b.toNat % 16)]

/-- A character in encoded form, if it is a control character or in the given set. -/
def encodeChar (special : List Char) (c : Char) : List Char :=
  if isControl c || special.contains c then (Utf8.encode c.toString).flatMap encodeByte else [c]

def encodeWith (special : List Char) (s : List Char) : String :=
  String.ofList (s.flatMap (encodeChar special))

def fragmentSet : List Char := [' ', '"', '<', '>', '\x60']

def pathSet : List Char := fragmentSet ++ ['#', '?', '\x7b', '\x7d']

/-- The set of one segment of a path that may contain any character. -/
def segmentSet : List Char := pathSet ++ ['/', '%', '\\']

def userinfoSet : List Char := pathSet ++ ['/', ':', ';', '=', '@', '[', '\\', ']', '^', '|']

/-- The set of a query; URLs with a known kind of host encode the apostrophe too. -/
def querySet (special : Bool) : List Char :=
  [' ', '"', '#', '<', '>'] ++ (if special then ['\''] else [])

def hexValue? (b : UInt8) : Option UInt8 :=
  if 48 ≤ b ∧ b ≤ 57 then some (b - 48)
  else if 65 ≤ b ∧ b ≤ 70 then some (b - 55)
  else if 97 ≤ b ∧ b ≤ 102 then some (b - 87)
  else none

/-- Encoded bytes are read back; a `%` without two digits stays. -/
def decodeBytes : List UInt8 → List UInt8
  | 37 :: h :: l :: rest =>
    match hexValue? h, hexValue? l with
    | some a, some b => (16 * a + b) :: decodeBytes rest
    | _, _ => 37 :: decodeBytes (h :: l :: rest)
  | b :: rest => b :: decodeBytes rest
  | [] => []

end LinterClient.Url
