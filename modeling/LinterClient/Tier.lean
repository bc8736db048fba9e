/-!
Configuration tiers, and values given tier by tier.
-/

namespace LinterClient

/-- A place where settings are kept. A narrower tier overrides a broader one. -/
inductive Tier where
  | global
  | workspace
  | folder
deriving DecidableEq, Inhabited

namespace Tier

/-- All tiers, broadest first. -/
def all : List Tier := [.global, .workspace, .folder]

def name : Tier → String
  | .global => "global"
  | .workspace => "workspace"
  | .folder => "workspaceFolder"

def ofName? (s : String) : Option Tier :=
  all.find? (·.name = s)

/-- The tiers at least as broad as the given one, broadest first. -/
def upTo : Tier → List Tier
  | .global => [.global]
  | .workspace => [.global, .workspace]
  | .folder => [.global, .workspace, .folder]

end Tier

/-- The value of one key in each tier; a tier that does not define the key has none. -/
structure Scoped (α : Type) where
  global : Option α
  workspace : Option α
  folder : Option α
deriving DecidableEq

namespace Scoped

def empty : Scoped α := ⟨none, none, none⟩

instance : Inhabited (Scoped α) := ⟨empty⟩

def get (s : Scoped α) : Tier → Option α
  | .global => s.global
  | .workspace => s.workspace
  | .folder => s.folder

def set (s : Scoped α) (tier : Tier) (value : Option α) : Scoped α :=
  match tier with
  | .global => { s with global := value }
  | .workspace => { s with workspace := value }
  | .folder => { s with folder := value }

def ofFn (f : Tier → Option α) : Scoped α :=
  ⟨f .global, f .workspace, f .folder⟩

/-- The value of the narrowest tier that has one. -/
def effective (s : Scoped α) : Option α :=
  s.folder <|> s.workspace <|> s.global

/-- Each value under a partial function; a value that it rejects is absent. -/
def filterMap (f : α → Option β) (s : Scoped α) : Scoped β :=
  ofFn fun t => (s.get t).bind f

theorem ext_get {s u : Scoped α} (same : ∀ t, s.get t = u.get t) : s = u := by
  obtain ⟨global, workspace, folder⟩ := s
  obtain ⟨global', workspace', folder'⟩ := u
  obtain rfl : global = global' := same .global
  obtain rfl : workspace = workspace' := same .workspace
  obtain rfl : folder = folder' := same .folder
  rfl

@[simp] theorem get_ofFn (f : Tier → Option α) (t : Tier) : (ofFn f).get t = f t := by
  cases t <;> rfl

@[simp] theorem get_set_self (s : Scoped α) (t : Tier) (v : Option α) : (s.set t v).get t = v := by
  cases t <;> rfl

theorem get_set_of_ne (s : Scoped α) {t u : Tier} (v : Option α) (h : u ≠ t) :
    (s.set t v).get u = s.get u := by
  cases t <;> cases u <;> first | rfl | exact absurd rfl h

end Scoped

end LinterClient
