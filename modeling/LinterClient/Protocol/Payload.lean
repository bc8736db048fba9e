import LinterClient.Json.Decode
import LinterClient.Url.Parser

/-!
The parameters of the linter server's requests and notifications.
-/

namespace LinterClient.Protocol

open LinterClient.Json

/-- A URL is read from its text and written in normal form. -/
def decodeUrl : Decoder Url
  | .str s =>
    match Url.parse s with
    | .ok u => .ok u
    | .error e => .error (.rejected (e.message ++ ": " ++ Text.quoted s))
  | v => .error (.invalidType v "a string representing an URL")

/-- The health that the server reports. -/
inductive Status where
  | ok
  | warn
  | error
deriving DecidableEq

namespace Status

def code : Status → Nat
  | .ok => 1
  | .warn => 2
  | .error => 3

def label : Status → String
  | .ok => "ok"
  | .warn => "warn"
  | .error => "error"

def decode : Decoder Status := fun v => do
  match ← Decoder.byte v with
  | 1 => .ok .ok
  | 2 => .ok .warn
  | 3 => .ok .error
  | n => .error (.rejected ("unknown status " ++ toString n))

def toJson (s : Status) : Json := .ofNat s.code

end Status

structure StatusParams where
  state : Status
deriving DecidableEq

namespace StatusParams

private def fields : Fields StatusParams := mk <$> .required "state" Status.decode

def decode : Decoder StatusParams := fields.decode "StatusParams"

def toJson (p : StatusParams) : Json := .ofMembers [("state", p.state.toJson)]

end StatusParams

structure DocumentIdentifier where
  uri : Url
deriving DecidableEq

namespace DocumentIdentifier

private def fields : Fields DocumentIdentifier := mk <$> .required "uri" decodeUrl

def decode : Decoder DocumentIdentifier := fields.decode "TextDocumentIdentifier"

def toJson (d : DocumentIdentifier) : Json := .ofMembers [("uri", .str d.uri.text)]

end DocumentIdentifier

structure NoConfigParams where
  message : String
  document : DocumentIdentifier
deriving DecidableEq

namespace NoConfigParams

private def fields : Fields NoConfigParams :=
  mk <$> .required "message" .string <*> .required "document" DocumentIdentifier.decode

def decode : Decoder NoConfigParams := fields.decode "NoConfigParams"

def toJson (p : NoConfigParams) : Json :=
  .ofMembers [("message", .str p.message), ("document", p.document.toJson)]

end NoConfigParams

structure NoLibraryParams where
  source : DocumentIdentifier
deriving DecidableEq

namespace NoLibraryParams

private def fields : Fields NoLibraryParams :=
  mk <$> .required "source" DocumentIdentifier.decode

def decode : Decoder NoLibraryParams := fields.decode "NoLibraryParams"

def toJson (p : NoLibraryParams) : Json := .ofMembers [("source", p.source.toJson)]

end NoLibraryParams

structure OpenDocParams where
  url : String
deriving DecidableEq

namespace OpenDocParams

private def fields : Fields OpenDocParams := mk <$> .required "url" .string

def decode : Decoder OpenDocParams := fields.decode "OpenDocParams"

def toJson (p : OpenDocParams) : Json := .ofMembers [("url", .str p.url)]

end OpenDocParams

structure ProbeFailedParams where
  textDocument : DocumentIdentifier
deriving DecidableEq

namespace ProbeFailedParams

private def fields : Fields ProbeFailedParams :=
  mk <$> .required "textDocument" DocumentIdentifier.decode

def decode : Decoder ProbeFailedParams := fields.decode "ProbeFailedParams"

def toJson (p : ProbeFailedParams) : Json := .ofMembers [("textDocument", p.textDocument.toJson)]

end ProbeFailedParams

/-- A pair: the exit code and a message. -/
structure ExitCalledParams where
  exitCode : Int
  message : String
deriving DecidableEq

namespace ExitCalledParams

private def fields : Fields ExitCalledParams :=
  mk <$> .required "0" .int64 <*> .required "1" .string

def decode : Decoder ExitCalledParams := fields.decodeTuple "ExitCalledParams"

def toJson (p : ExitCalledParams) : Json := .arr [.ofInt p.exitCode, .str p.message]

end ExitCalledParams

structure ConfigurationItem where
  scopeUri : Option String
  sectionName : Option String
deriving DecidableEq

namespace ConfigurationItem

private def fields : Fields ConfigurationItem :=
  mk <$> .optional "scopeUri" .string <*> .optional "section" .string

def decode : Decoder ConfigurationItem := fields.decode "ConfigurationItem"

def toJson (i : ConfigurationItem) : Json :=
  .ofMembers ((i.scopeUri.map fun u => ("scopeUri", Json.str u)).toList
    ++ (i.sectionName.map fun s => ("section", Json.str s)).toList)

end ConfigurationItem

structure ConfigurationParams where
  items : List ConfigurationItem
deriving DecidableEq

namespace ConfigurationParams

private def fields : Fields ConfigurationParams :=
  mk <$> .required "items" (.list ConfigurationItem.decode)

def decode : Decoder ConfigurationParams := fields.decode "ConfigurationParams"

def toJson (p : ConfigurationParams) : Json :=
  .ofMembers [("items", .arr (p.items.map (·.toJson)))]

end ConfigurationParams

inductive FileChange where
  | created
  | changed
  | deleted
deriving DecidableEq

namespace FileChange

def code : FileChange → Nat
  | .created => 1
  | .changed => 2
  | .deleted => 3

def decode : Decoder FileChange := fun v => do
  match ← Decoder.byte v with
  | 1 => .ok .created
  | 2 => .ok .changed
  | 3 => .ok .deleted
  | n => .error (.rejected ("unknown file change type " ++ toString n))

def toJson (c : FileChange) : Json := .ofNat c.code

end FileChange

structure FileEvent where
  uri : Url
  change : FileChange
deriving DecidableEq

namespace FileEvent

private def fields : Fields FileEvent :=
  mk <$> .required "uri" decodeUrl <*> .required "type" FileChange.decode

def decode : Decoder FileEvent := fields.decode "FileEvent"

def toJson (e : FileEvent) : Json :=
  .ofMembers [("uri", .str e.uri.text), ("type", e.change.toJson)]

end FileEvent

end LinterClient.Protocol
