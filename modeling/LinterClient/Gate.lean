import LinterClient.Settings.Options
import LinterClient.Settings.ValidateEntry
import LinterClient.Store.Basic

/-!
Whether a document is linted.
-/

namespace LinterClient

/-- The URLs of documents that the server declined, in the order in which it did. -/
structure ProbeFailures where
  uris : List Url
deriving DecidableEq

namespace ProbeFailures

def empty : ProbeFailures := ⟨[]⟩

def contains (p : ProbeFailures) (uri : Url) : Bool := p.uris.contains uri

def insert (p : ProbeFailures) (uri : Url) : ProbeFailures :=
  if p.contains uri then p else ⟨p.uris ++ [uri]⟩

end ProbeFailures

namespace Gate

open Settings

/-- The outcome for a document. An entry of the validate list counts before a failed probe, and a failed
probe before the probe list. -/
def outcome {σ : Type} [Store σ] (s : σ) (failures : ProbeFailures) (d : TextDocument) : Validate :=
  let read {α : Type} (decode : Json.Decoder α) (fallback : α) (key : String) : α :=
    Store.readOr decode fallback s key (some d.uri)
  if !read .bool true "enable" then .off
  else if (read (.list ValidateEntry.decode) [] "validate").any (·.language? = some d.language) then .on
  else if failures.contains d.uri then .off
  else if (read (.list .any) [] "probe").contains (.str d.language) then .probe
  else .off

end Gate

end LinterClient
