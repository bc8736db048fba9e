/-!
UTF-8 bytes of a text, and the text that bytes stand for when some of them are not UTF-8.
-/

namespace LinterClient.Utf8

/-- The bytes of a text. -/
def encode (s : String) : List UInt8 :=
  s.toUTF8.toList

def decode? (bytes : List UInt8) : Option String :=
  String.fromUTF8? ⟨bytes.toArray⟩

def isContinuation (b : UInt8) : Bool :=
  0x80 ≤ b && b ≤ 0xBF

/-- The length of the sequence that a first byte opens and the range allowed for the second byte. -/
def lead? (b : UInt8) : Option (Nat × UInt8 × UInt8) :=
  if b < 0x80 then some (1, 0, 0)
  else if 0xC2 ≤ b ∧ b ≤ 0xDF then some (2, 0x80, 0xBF)
  else if b = 0xE0 then some (3, 0xA0, 0xBF)
  else if b = 0xED then some (3, 0x80, 0x9F)
  else if 0xE1 ≤ b ∧ b ≤ 0xEF then some (3, 0x80, 0xBF)
  else if b = 0xF0 then some (4, 0x90, 0xBF)
  else if b = 0xF4 then some (4, 0x80, 0x8F)
  else if 0xF1 ≤ b ∧ b ≤ 0xF3 then some (4, 0x80, 0xBF)
  else none

/-- How many bytes at the start belong together, and their character if the sequence is whole. -/
def sequence (b : UInt8) (rest : List UInt8) : Nat × Option Char :=
  match lead? b with
  | none => (1, none)
  | some (1, _, _) => (1, some (Char.ofNat b.toNat))
  | some (size, low, high) =>
    match rest with
    | [] => (1, none)
    | c :: more =>
      if c < low ∨ high < c then (1, none)
      else
        let tail := (more.take (size - 2)).takeWhile isContinuation
        if tail.length = size - 2 then
          let first := b.toNat % 1 <<< (7 - size)
          let code := (c :: tail).foldl (fun acc d => acc * 64 + d.toNat % 64) first
          (size, some (Char.ofNat code))
        else (2 + tail.length, none)

def lossyChars : Nat → List UInt8 → List Char
  | 0, _ => []
  | _, [] => []
  | fuel + 1, b :: rest =>
    let (size, c) := sequence b rest
    c.getD (Char.ofNat 0xFFFD) :: lossyChars fuel (rest.drop (size - 1))

/-- The text of any bytes: each longest broken start of a sequence reads as U+FFFD. -/
def lossy (bytes : List UInt8) : String :=
  (decode? bytes).getD (String.ofList (lossyChars bytes.length bytes))

/-- Where bytes stop being UTF-8. -/
structure Fault where
  index : Nat
  /-- How many bytes are broken; none if they only lack their end. -/
  length : Option Nat
deriving DecidableEq

private def faultFrom : Nat → Nat → List UInt8 → Option Fault
  | 0, _, _ => none
  | _, _, [] => none
  | fuel + 1, index, b :: rest =>
    match sequence b rest with
    | (size, some _) => faultFrom fuel (index + size) (rest.drop (size - 1))
    | (size, none) =>
      let isCut := (lead? b).isSome && size - 1 = rest.length
      some ⟨index, if isCut then none else some size⟩

def fault? (bytes : List UInt8) : Option Fault :=
  faultFrom bytes.length 0 bytes

def Fault.message (f : Fault) : String :=
  match f.length with
  | some n => "invalid utf-8 sequence of " ++ toString n ++ " bytes from index " ++ toString f.index
  | none => "incomplete utf-8 byte sequence from index " ++ toString f.index

end LinterClient.Utf8
