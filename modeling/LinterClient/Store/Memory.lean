import LinterClient.KeyPath
import LinterClient.Store.Basic

/-!
A store that keeps all tiers in memory, those of folders by their URLs.
-/

namespace LinterClient

open Json (Members)

structure MemoryStore where
  workspace : Workspace
  global : Members
  workspaceTier : Members
  folders : List (String × Members)
deriving DecidableEq

namespace MemoryStore

def new (workspace : Workspace) : MemoryStore := ⟨workspace, [], [], []⟩

def folderKey? (s : MemoryStore) (resource : Option Url) : Option String :=
  (resource.bind s.workspace.folderFor?).map (·.uri.text)

def tier (s : MemoryStore) (resource : Option Url) : Tier → Members
  | .global => s.global
  | .workspace => s.workspaceTier
  | .folder => ((s.folderKey? resource).bind fun k => s.folders.lookup k).getD []

def inspect (s : MemoryStore) (key : String) (resource : Option Url) : Scoped Json :=
  .ofFn fun t => KeyPath.lookup (s.tier resource t) (KeyPath.segments key)

def setFolder (key : String) (m : Members) : List (String × Members) → List (String × Members)
  | [] => [(key, m)]
  | (k, n) :: rest => if key = k then (key, m) :: rest else (k, n) :: setFolder key m rest

/-- The store with another content of one tier; it must be open to be written. -/
def setTier (s : MemoryStore) (resource : Option Url) (m : Members) : Tier → Except StoreError MemoryStore
  | .global => .ok { s with global := m }
  | .workspace =>
    if s.workspace.isOpen then .ok { s with workspaceTier := m } else .error (.noWorkspace .workspace)
  | .folder =>
    match s.folderKey? resource with
    | some k => .ok { s with folders := setFolder k m s.folders }
    | none => .error (.noWorkspaceFolder (resource.map (·.text)))

def update (s : MemoryStore) (w : SettingWrite) : Except StoreError MemoryStore :=
  s.setTier w.resource
    (KeyPath.update (s.tier w.resource w.tier) w.value (KeyPath.segments w.key)) w.tier

instance : Store MemoryStore where
  workspace := workspace
  inspect := inspect
  write s w :=
    match s.update w with
    | .ok s => (.ok (), s)
    | .error e => (.error e, s)

end MemoryStore

end LinterClient
