import LinterClient.Json.Parser
import LinterClient.Json.Printer
import LinterClient.Text.Blank
import LinterClient.Text.Quoted
import LinterClient.Text.Utf8

/-!
Messages on a byte stream: each is a JSON text behind a header that gives its length in bytes.
-/

namespace LinterClient.Framing

/-- The longest body that is read. -/
def maxFrameBytes : Nat := 8 * 1024 * 1024

/-- Why the text of a length is none. -/
inductive LengthError where
  | empty
  | invalidDigit
  | tooLarge
deriving DecidableEq

def LengthError.message : LengthError → String
  | .empty => "cannot parse integer from empty string"
  | .invalidDigit => "invalid digit found in string"
  | .tooLarge => "number too large to fit in target type"

/-- Why a stream cannot be read any further. -/
inductive Error where
  | headerNotText (fault : Utf8.Fault)
  | endInsideHeader
  | badLength (value : String) (reason : LengthError)
  | noLength
  | tooLong (length : Nat)
  | endInsideBody
  | badBody
deriving DecidableEq

/-- What went wrong, the outermost description first. -/
def Error.chain : Error → List String
  | .headerNotText f => ["reading frame header", f.message]
  | .endInsideHeader => ["stream ended inside frame header"]
  | .badLength value reason => ["bad Content-Length " ++ Text.quoted value, reason.message]
  | .noLength => ["frame header has no Content-Length"]
  | .tooLong n =>
    ["frame of " ++ toString n ++ " bytes exceeds limit of " ++ toString maxFrameBytes]
  | .endInsideBody => ["reading frame body", "early eof"]
  | .badBody => ["decoding frame body"]

/-- A length in decimal digits, below `2 ^ 64`. -/
def parseLength (s : List Char) : Except LengthError Nat :=
  let digits := match s with
    | '+' :: rest => rest
    | _ => s
  if s = [] then .error .empty
  else if digits = [] then .error .invalidDigit
  else
    let rec go (acc : Nat) : List Char → Except LengthError Nat
      | [] => .ok acc
      | c :: rest =>
        if '0' ≤ c ∧ c ≤ '9' then
          let acc := acc * 10 + (c.toNat - 48)
          if acc < 1 <<< 64 then go acc rest else .error .tooLarge
        else .error .invalidDigit
    go 0 digits

inductive HeaderLine where
  | last
  | other
  | length (n : Nat)

def isLengthName (name : List Char) : Bool :=
  String.ofList ((Text.trim name).map Char.toLower) = "content-length"

def headerLine (bytes : List UInt8) : Except Error HeaderLine :=
  match Utf8.decode? bytes with
  | none => .error (.headerNotText ((Utf8.fault? bytes).getD ⟨0, none⟩))
  | some line =>
    let text := Text.trim line.toList
    if text = [] then .ok .last
    else match text.dropWhile (· ≠ ':') with
      | [] => .ok .other
      | _ :: value =>
        if isLengthName (text.takeWhile (· ≠ ':')) then
          match parseLength (Text.trim value) with
          | .ok n => .ok (.length n)
          | .error reason => .error (.badLength (String.ofList value) reason)
        else .ok .other

/-- What reading a message from the bytes received so far gives. -/
inductive Read where
  | message (value : Json) (rest : List UInt8)
  /-- More bytes are needed. -/
  | wait
  /-- The stream ended between two messages. -/
  | finished
  | failed (error : Error)

/-- The first line of the bytes, with its line break, and what follows it. The last line of an ended
stream needs no line break. -/
def splitLine (ended : Bool) (bytes : List UInt8) : Option (List UInt8 × List UInt8) :=
  match bytes.dropWhile (· ≠ 10) with
  | _ :: rest => some (bytes.takeWhile (· ≠ 10) ++ [10], rest)
  | [] => if ended && !bytes.isEmpty then some (bytes, []) else none

inductive Header where
  | body (length : Nat) (rest : List UInt8)
  | wait
  | finished
  | failed (error : Error)

def readHeader (ended : Bool) : Nat → Bool → Option Nat → List UInt8 → Header
  | 0, _, _, _ => .wait
  | fuel + 1, started, length, bytes =>
    match splitLine ended bytes with
    | none =>
      if !ended then .wait else if started then .failed .endInsideHeader else .finished
    | some (line, rest) =>
      match headerLine line with
      | .error e => .failed e
      | .ok .last =>
        match length with
        | some n => .body n rest
        | none => .failed .noLength
      | .ok .other => readHeader ended fuel true length rest
      | .ok (.length n) => readHeader ended fuel true (some n) rest

/-- Reads the first message of the bytes received so far; `ended` says that no more will come. -/
def read (ended : Bool) (bytes : List UInt8) : Read :=
  match readHeader ended (bytes.length + 1) false none bytes with
  | .wait => .wait
  | .finished => .finished
  | .failed e => .failed e
  | .body length rest =>
    if maxFrameBytes < length then .failed (.tooLong length)
    else if rest.length < length then
      if ended then .failed .endInsideBody else .wait
    else
      match Json.parseBytes (rest.take length) with
      | some value => .message value (rest.drop length)
      | none => .failed .badBody

/-- How a stream of messages ends. -/
inductive Ending where
  | finished
  | failed (error : Error)
deriving DecidableEq

def readAllFrom : Nat → List UInt8 → List Json × Ending
  | 0, _ => ([], .finished)
  | fuel + 1, bytes =>
    match read true bytes with
    | .message value rest =>
      let (more, ending) := readAllFrom fuel rest
      (value :: more, ending)
    | .failed e => ([], .failed e)
    | .wait | .finished => ([], .finished)

/-- All messages of a whole stream, and how it ends. -/
def readAll (bytes : List UInt8) : List Json × Ending :=
  readAllFrom (bytes.length + 1) bytes

/-- A message as it is written to a stream. -/
def encode (message : Json) : List UInt8 :=
  let body := Utf8.encode message.text
  Utf8.encode ("Content-Length: " ++ toString body.length ++ "\r\n\r\n") ++ body

end LinterClient.Framing
