import LinterClient.Json.Basic

/-!
Dotted keys as paths into nested objects.

`eslint.run` addresses the member `run` of the member `eslint`. A language section such as
`[javascript]` is one segment.
-/

namespace LinterClient.KeyPath

open Json (Members)

def splitDots : List Char → List (List Char)
  | [] => [[]]
  | c :: rest =>
    if c = '.' then [] :: splitDots rest
    else match splitDots rest with
      | [] => [[c]]
      | piece :: more => (c :: piece) :: more

/-- The segments of a key; empty ones do not count. -/
def segments (key : String) : List String :=
  ((splitDots key.toList).filter (· ≠ [])).map String.ofList

/-- The value at a path; nothing is at the empty path. -/
def lookup (root : Members) : List String → Option Json
  | [] => none
  | [last] => Members.get? root last
  | segment :: path =>
    match Members.get? root segment with
    | some (.obj next) => lookup next path
    | _ => none

/-- Sets the value at a path. Parents that are missing or no objects become objects. -/
def assign (root : Members) (value : Json) : List String → Members
  | [] => root
  | [last] => Members.insert last value root
  | segment :: path =>
    let next := match Members.get? root segment with
      | some (.obj next) => next
      | _ => []
    Members.insert segment (.obj (assign next value path)) root

/-- Removes the value at a path. Without the value, or an object on the way to it, nothing changes. -/
def remove (root : Members) : List String → Members
  | [] => root
  | [last] => Members.erase root last
  | segment :: path =>
    match Members.get? root segment with
    | some (.obj next) => Members.insert segment (.obj (remove next path)) root
    | _ => root

/-- Sets the value at a path, or removes it. -/
def update (root : Members) (value : Option Json) (path : List String) : Members :=
  match value with
  | some v => assign root v path
  | none => remove root path

end LinterClient.KeyPath
