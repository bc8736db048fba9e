import LinterClient.Settings.CodeActions
import LinterClient.Settings.WorkingDirectory
import LinterClient.Store.Basic

/-!
Which legacy settings are migrated, and to what.

A migration looks at each tier on its own, broadest first. A tier that fixes on save in the legacy way
gets the linter's code action. Whether a tier fixes everything is passed on to the narrower ones, and
where it holds, a record that turns fixing off for a language becomes an opt-out in that language's
section. The list of records itself stays as it is.
-/

namespace LinterClient.Migration

open Settings
open Json (Members)

/-- The value of a setting in one tier, and whether a migration changes it. -/
structure Element where
  value : Option Json
  changed : Bool
deriving DecidableEq

/-- A setting in all tiers. -/
structure Family where
  global : Element
  workspace : Element
  folder : Element
deriving DecidableEq

namespace Family

def ofScoped (s : Scoped Json) : Family :=
  ⟨⟨s.global, false⟩, ⟨s.workspace, false⟩, ⟨s.folder, false⟩⟩

def get (f : Family) : Tier → Element
  | .global => f.global
  | .workspace => f.workspace
  | .folder => f.folder

def set (f : Family) (tier : Tier) (e : Element) : Family :=
  match tier with
  | .global => { f with global := e }
  | .workspace => { f with workspace := e }
  | .folder => { f with folder := e }

def ofFn (f : Tier → Element) : Family := ⟨f .global, f .workspace, f .folder⟩

def needsUpdate (f : Family) : Bool :=
  Tier.all.any fun t => (f.get t).changed

end Family

/-- Whether a legacy flag counts as set. -/
def truthy : Option Json → Bool
  | none | some .null => false
  | some (.bool b) => b
  | some (.num (.int n _)) => n ≠ 0
  | some (.num (.float x _)) => !x.isZero
  | some (.str s) => s ≠ ""
  | some (.arr _) | some (.obj _) => true

/-- A mapping of code actions that may be missing. Other values are no mapping. -/
def mapping? : Option Json → Option Members
  | none | some .null => some []
  | some (.obj m) => some m
  | some _ => none

/-- Migrates one tier's code actions for its legacy flag, and says whether the tier fixes everything. -/
def migrateAutoFix (autoFix : Option Json) (actions : Element) : Element × Bool :=
  match mapping? actions.value with
  | none => (actions, false)
  | some m =>
    let map : CodeActions := ⟨m⟩
    let kept : Element := { actions with value := some map.toJson }
    if map.isOptedOut then (kept, false)
    else
      let generic := map.fixAll.getD false
      if truthy autoFix ∧ !generic ∧ (map.get? Keys.linterFixAll).isNone then
        (⟨some (map.setLinterFixAll true).toJson, true⟩, true)
      else (kept, map.linterFixAll.getD generic)

/-- The languages of the records in a list that turn fixing off. -/
def optedOutLanguages : Option Json → List String
  | some (.arr entries) =>
    entries.filterMap fun e =>
      match e with
      | .obj m =>
        if Members.get? m "autoFix" = some (.bool false) then
          (Members.get? m "language").bind (·.asString?)
        else none
      | _ => none
  | _ => []

/-- Turns the linter's action off in a language's mapping of one tier. -/
def migrateOptOut (actions : Element) : Element :=
  match mapping? actions.value with
  | none => actions
  | some m =>
    let map : CodeActions := ⟨m⟩
    if map.isOptedOut then { actions with value := some map.toJson }
    else ⟨some (map.setLinterFixAll false).toJson, true⟩

/-- How many entries of a list of working directories are written in an old way. -/
def legacyDirectories : Option Json → Nat
  | some (.arr entries) => entries.countP fun e => (WorkingDirectoryEntry.ofJson e).isMigratable
  | _ => 0

/-- What is read before anything is changed. -/
structure Snapshot where
  codeActions : Scoped Json
  autoFix : Scoped Json
  validate : Scoped Json
  workingDirectories : Scoped Json
  /-- The code actions in the section of each language. -/
  language : String → Scoped Json

def Snapshot.take {σ : Type} [Store σ] (s : σ) (resource : Option Url) : Snapshot :=
  let read := fun key => Store.inspect s key resource
  ⟨read Keys.codeActionsOnSave, read Keys.autoFixOnSave, read Keys.validate,
    read Keys.workingDirectories, fun l => read (Keys.languageCodeActions l)⟩

/-- The sections of languages, sorted by name. -/
abbrev Languages := List (String × Family)

/-- Migrates a language's section in one tier; a section that was not looked at before is read. -/
def optOut (snapshot : Snapshot) (tier : Tier) (language : String) : Languages → Languages
  | [] =>
    let f := Family.ofScoped (snapshot.language language)
    [(language, f.set tier (migrateOptOut (f.get tier)))]
  | (name, f) :: rest =>
    if language = name then (name, f.set tier (migrateOptOut (f.get tier))) :: rest
    else if language < name then
      let g := Family.ofScoped (snapshot.language language)
      (language, g.set tier (migrateOptOut (g.get tier))) :: (name, f) :: rest
    else (name, f) :: optOut snapshot tier language rest

/-- A migration that was computed but not written. -/
structure Recorded where
  resource : Option Url
  codeActions : Family
  autoFix : Family
  validate : Family
  workingDirectories : Family
  languages : Languages
  /-- Whether a tier fixes everything, by itself or through a broader one. -/
  fixAll : Tier → Bool

/-- Migrates a tier's code actions, and says whether the tier itself fixes everything. -/
def ownFixAll (snapshot : Snapshot) (tier : Tier) : Element × Bool :=
  migrateAutoFix (snapshot.autoFix.get tier) ⟨snapshot.codeActions.get tier, false⟩

/-- Computes all changes for a snapshot. -/
def record (snapshot : Snapshot) (resource : Option Url) : Recorded :=
  let fixAll := fun (t : Tier) => t.upTo.any fun u => (ownFixAll snapshot u).2
  let languages := Tier.all.foldl (fun acc t =>
    if fixAll t then
      (optedOutLanguages (snapshot.validate.get t)).foldl (fun acc l => optOut snapshot t l acc) acc
    else acc) []
  { resource
    codeActions := .ofFn fun t => (ownFixAll snapshot t).1
    autoFix := .ofScoped snapshot.autoFix
    validate := .ofScoped snapshot.validate
    workingDirectories := .ofScoped snapshot.workingDirectories
    languages
    fixAll }

/-- The tiers with old working directories, and how many each has. -/
def legacyReport (snapshot : Snapshot) : List (Tier × Nat) :=
  Tier.all.filterMap fun t =>
    let n := legacyDirectories (snapshot.workingDirectories.get t)
    if n = 0 then none else some (t, n)

/-- One write that a migration asks for. A write to a language's section is merged with what the section
holds by then. -/
structure Change where
  key : String
  tier : Tier
  value : Option Json
  language : Option String
deriving DecidableEq

/-- The writes for one key, broadest tier first. -/
def familyChanges (key : String) (language : Option String) (f : Family) : List Change :=
  Tier.all.filterMap fun t =>
    let e := f.get t
    if e.changed then some ⟨key, t, e.value, language⟩ else none

namespace Recorded

def needsUpdate (r : Recorded) : Bool :=
  r.codeActions.needsUpdate || r.autoFix.needsUpdate || r.validate.needsUpdate ||
    r.workingDirectories.needsUpdate || r.languages.any (·.2.needsUpdate)

/-- All writes in order: editor and linter settings, then the sections of languages. -/
def changes (r : Recorded) : List Change :=
  familyChanges Keys.codeActionsOnSave none r.codeActions ++
  familyChanges Keys.autoFixOnSave none r.autoFix ++
  familyChanges Keys.validate none r.validate ++
  familyChanges Keys.workingDirectories none r.workingDirectories ++
  r.languages.flatMap fun (l, f) => familyChanges (Keys.languageCodeActions l) (some l) f

end Recorded

/-- A migrated section laid over what the tier holds now. -/
def overlay (current migrated : Option Json) : Option Json :=
  match current, migrated with
  | some (.obj current), some (.obj migrated) => some (.obj (Members.extend current migrated))
  | _, _ => migrated

/-- The write for a change, given what the key holds just before. -/
def Change.toWrite (c : Change) (resource : Option Url) (current : Scoped Json) : SettingWrite :=
  ⟨c.key, if c.language.isSome then overlay (current.get c.tier) c.value else c.value, c.tier, resource⟩

structure Failure where
  key : String
  tier : Tier
  reason : StoreError
deriving DecidableEq

def failureMessage (failures : List Failure) : String :=
  toString failures.length ++ " setting update(s) failed: " ++
    "; ".intercalate (failures.map fun f =>
      f.key ++ " (" ++ f.tier.name ++ "): " ++ f.reason.message)

/-- Writes one change, and notes a failure. -/
def writeChange {σ : Type} [Store σ] (resource : Option Url) (state : σ × List Failure) (c : Change) :
    σ × List Failure :=
  let (s, failures) := state
  let (result, s) := Store.write s (c.toWrite resource (Store.inspect s c.key resource))
  match result with
  | .ok () => (s, failures)
  | .error e => (s, failures ++ [⟨c.key, c.tier, e⟩])

/-- Writes all changes one after the other. A failed write does not keep the others back. -/
def update {σ : Type} [Store σ] (r : Recorded) (s : σ) : σ × List Failure :=
  r.changes.foldl (writeChange r.resource) (s, [])

end LinterClient.Migration
