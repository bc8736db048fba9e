import LinterClient.Protocol.Payload

/-!
Requests, responses and notifications, as JSON messages.
-/

namespace LinterClient.Protocol

open LinterClient.Json

/-- Why a request is not answered with a result. -/
inductive Error where
  | methodNotFound (method : String)
  | invalidParams (method : String) (reason : DecodeError)
  | internal (message : String)
deriving DecidableEq

namespace Error

def code : Error → Int
  | .methodNotFound _ => -32601
  | .invalidParams _ _ => -32602
  | .internal _ => -32603

def message : Error → String
  | .methodNotFound m => "method not found: " ++ m
  | .invalidParams m reason => "invalid params for " ++ m ++ ": " ++ reason.message
  | .internal m => m

end Error

/-- The parameters of a method, decoded. -/
def parseParams (d : Decoder α) (method : String) (params : Json) : Except Error α :=
  match d params with
  | .ok a => .ok a
  | .error e => .error (.invalidParams method e)

private def optionalParams (params : Option Json) : Members :=
  (params.map fun p => ("params", p)).toList

def request (id : Nat) (method : String) (params : Option Json) : Json :=
  .ofMembers ([("jsonrpc", .str "2.0"), ("id", .ofNat id), ("method", .str method)]
    ++ optionalParams params)

def notification (method : String) (params : Option Json) : Json :=
  .ofMembers ([("jsonrpc", .str "2.0"), ("method", .str method)] ++ optionalParams params)

/-- The answer to a request of the server, under its own id. -/
def response (id : Json) : Except Error Json → Json
  | .ok result => .ofMembers [("jsonrpc", .str "2.0"), ("id", id), ("result", result)]
  | .error e =>
    .ofMembers [("jsonrpc", .str "2.0"), ("id", id),
      ("error", .ofMembers [("code", .ofInt e.code), ("message", .str e.message)])]

/-- A message from the server. -/
inductive Incoming where
  | response (id : Nat) (body : Members)
  | request (id : Json) (method : String) (params : Json)
  | notification (method : String) (params : Json)
deriving DecidableEq

/-- What a message is, if it is anything. A message with a method and an id is a request, whatever else
it holds. -/
def Incoming.ofJson? : Json → Option Incoming
  | .obj m =>
    let method := (Members.get? m "method").bind asString?
    let isResponse := Members.contains m "result" || Members.contains m "error"
    let params := (Members.get? m "params").getD .null
    match Members.get? m "id", method with
    | some id, none =>
      if isResponse then
        match id with
        | .num (.int n _) =>
          if 0 ≤ n then
            some (.response n.toNat (Members.erase (Members.erase m "params") "id"))
          else none
        | _ => none
      else none
    | some id, some method => some (.request id method params)
    | none, some method => some (.notification method params)
    | none, none => none
  | _ => none

/-- What the client says of itself when a connection starts. -/
def initializeParams (processId : Nat) (root : Option Url) (folders : List (String × Url)) : Json :=
  let folder := fun (f : String × Url) =>
    Json.ofMembers [("uri", .str f.2.text), ("name", .str f.1)]
  let dynamic := fun (on : Bool) => Json.ofMembers [("dynamicRegistration", .bool on)]
  .ofMembers [
    ("processId", .ofNat processId),
    ("clientInfo", .ofMembers [("name", .str "lintbridge"), ("version", .str "0.0.0")]),
    ("rootUri", .ofOption (root.map fun u => .str u.text)),
    ("capabilities", .ofMembers [
      ("workspace", .ofMembers [
        ("configuration", .bool true),
        ("didChangeConfiguration", dynamic true),
        ("didChangeWatchedFiles", dynamic true),
        ("workspaceFolders", .bool true)]),
      ("textDocument", .ofMembers [
        ("synchronization", .ofMembers [
          ("dynamicRegistration", .bool false),
          ("willSave", .bool false),
          ("willSaveWaitUntil", .bool false),
          ("didSave", .bool false)])])]),
    ("workspaceFolders", if folders.isEmpty then .null else .arr (folders.map folder))]

def didOpenParams (uri : Url) (language : String) (version : Int) (text : String) : Json :=
  .ofMembers [("textDocument", .ofMembers [("uri", .str uri.text), ("languageId", .str language),
    ("version", .ofInt version), ("text", .str text)])]

def didCloseParams (uri : Url) : Json :=
  .ofMembers [("textDocument", .ofMembers [("uri", .str uri.text)])]

end LinterClient.Protocol
