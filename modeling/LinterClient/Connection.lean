import LinterClient.Framing
import LinterClient.Launch
import LinterClient.Protocol.Message

/-!
The state of a connection to one linter server.

Frames that are sent wait in an outbox until they are written. What the server writes is read message by
message: responses go to the requests that wait for them, and notifications become events.
-/

namespace LinterClient

open Json (Members)

/-- Why the server can no longer be read. -/
inductive StopReason where
  | exited
  | failed (error : Framing.Error)
deriving DecidableEq

def StopReason.message : StopReason → String
  | .exited => "exited"
  | .failed e => "failed: " ++ ": ".intercalate e.chain

inductive ServerEvent where
  | notification (method : String) (params : Json)
  | stopped (reason : StopReason)
deriving DecidableEq

/-- A frame that waits to be written, or the order to write no more. -/
inductive Outgoing where
  | frame (message : Json)
  | stop
deriving DecidableEq

/-- The process of a server that the client started itself. -/
inductive ServerProcess where
  | none
  | running (launch : Launch)
  | exited
deriving DecidableEq

structure Connection where
  nextId : Nat
  /-- The ids of the requests that wait for a response. -/
  pending : List Nat
  /-- Responses that arrived, and were not yet looked at. -/
  arrived : List (Nat × Members)
  outbox : List Outgoing
  /-- Whether frames can still be sent. -/
  writing : Bool
  /-- What was written, and not yet read by the server. -/
  written : List UInt8
  inputClosed : Bool
  /-- What the server wrote, and the client did not yet read. -/
  received : List UInt8
  /-- Whether the server no longer writes. -/
  outputClosed : Bool
  events : List ServerEvent
  /-- Whether anybody takes the events. -/
  listening : Bool
  /-- Whether the reader still reads, or has yet to report its end. -/
  reading : Bool
  /-- Whether the client gave up reading. -/
  abandoned : Bool
  /-- How long a request waits for its response, in milliseconds. -/
  requestTimeout : Nat
  process : ServerProcess
deriving DecidableEq

namespace Connection

/-- How many frames the outbox holds. -/
def outboxCapacity : Nat := 64

/-- How many events wait to be taken. -/
def eventCapacity : Nat := 256

def defaultRequestTimeout : Nat := 30 * 1000

/-- How long the client waits for a server that is shut down, in milliseconds. -/
def shutdownTimeout : Nat := 2 * 1000

def new (requestTimeout : Nat) (process : ServerProcess) : Connection where
  nextId := 1
  pending := []
  arrived := []
  outbox := []
  writing := true
  written := []
  inputClosed := false
  received := []
  outputClosed := false
  events := []
  listening := true
  reading := true
  abandoned := false
  requestTimeout
  process

/-- Whether anybody reads what the server writes. -/
def isRead (c : Connection) : Bool :=
  c.reading && !c.abandoned && !c.outputClosed

/-- Whether a frame can be sent, or is known to be refused. -/
def hasRoom (c : Connection) : Bool :=
  !c.writing || c.outbox.length < outboxCapacity

/-- Puts something into the outbox, unless nothing is written any more. -/
def enqueue (c : Connection) (o : Outgoing) : Bool × Connection :=
  if c.writing then (true, { c with outbox := c.outbox ++ [o] }) else (false, c)

/-- Ends the writing; what waits in the outbox is lost. -/
def stopWriting (c : Connection) : Connection :=
  { c with writing := false, outbox := [] }

/-- Takes the first entry of the outbox and writes it. Answers whether writing goes on. -/
def writeNext (c : Connection) : Bool × Connection :=
  match c.outbox with
  | [] => (true, c)
  | .stop :: _ => (false, c.stopWriting)
  | .frame message :: rest =>
    if c.inputClosed then (false, c.stopWriting)
    else (true, { c with outbox := rest, written := c.written ++ Framing.encode message })

/-- An id for a new request, which waits from then on. -/
def newRequest (c : Connection) : Nat × Connection :=
  (c.nextId, { c with nextId := c.nextId + 1, pending := c.pending ++ [c.nextId] })

def forget (c : Connection) (id : Nat) : Connection :=
  { c with pending := c.pending.filter (· ≠ id) }

/-- Hands a response to the request that waits for it. Others are dropped. -/
def deliver (c : Connection) (id : Nat) (body : Members) : Connection :=
  if c.pending.contains id then { c.forget id with arrived := c.arrived ++ [(id, body)] } else c

/-- What became of a request. -/
inductive Reply where
  | waiting
  | arrived (body : Members)
  | lost

def reply (c : Connection) (id : Nat) : Reply :=
  if c.pending.contains id then .waiting
  else match c.arrived.lookup id with
    | some body => .arrived body
    | none => .lost

/-- What became of a request, which is forgotten. -/
def takeReply (c : Connection) (id : Nat) : Reply × Connection :=
  (c.reply id, { c.forget id with arrived := c.arrived.filter (·.1 ≠ id) })

/-- The next message of the server, or why there is none. -/
def next (c : Connection) : Framing.Read :=
  Framing.read c.outputClosed c.received

def hasNext (c : Connection) : Bool :=
  c.abandoned || match c.next with
    | .wait => false
    | _ => true

def hasEventRoom (c : Connection) : Bool :=
  c.abandoned || !c.listening || c.events.length < eventCapacity

def addEvent (c : Connection) (e : ServerEvent) : Connection :=
  if c.listening then { c with events := c.events ++ [e] } else c

/-- The events are no longer taken. -/
def ignoreEvents (c : Connection) : Connection :=
  { c with listening := false, events := [] }

end Connection

/-- Why a request or notification did not succeed. -/
inductive RequestError where
  | notSent (method : String)
  | lost (method : String)
  | timedOut (method : String) (milliseconds : Nat)
  | refused (method : String) (message : Option String)
deriving DecidableEq

namespace RequestError

private def digits3 (n : Nat) : List Char :=
  [Nat.digitChar (n / 100 % 10), Nat.digitChar (n / 10 % 10), Nat.digitChar (n % 10)]

/-- A time span in its largest unit, with as many decimals as it needs. -/
def durationText (ms : Nat) : String :=
  if ms = 0 then "0ns"
  else if ms < 1000 then toString ms ++ "ms"
  else
    let decimals := ((digits3 (ms % 1000)).reverse.dropWhile (· = '0')).reverse
    toString (ms / 1000) ++ (if decimals = [] then "" else "." ++ String.ofList decimals) ++ "s"

def message : RequestError → String
  | .notSent m => "connection closed before " ++ m ++ " was sent"
  | .lost m => "connection closed while waiting for " ++ m
  | .timedOut m ms => m ++ " timed out after " ++ durationText ms
  | .refused m text => m ++ " failed: " ++ text.getD "unknown error"

end RequestError

end LinterClient
