import LinterClient.DocumentSettings
import LinterClient.Migration.Choice
import LinterClient.Migration.Record
import LinterClient.Session.Windowing

/-!
Migrating settings while others use them.

Migrations take turns, and the settings of a document are read in a turn of their own: no reader sees a
migration that has written only a part. While one writes, what is to be done about changed settings
waits for its end.
-/

namespace LinterClient.Session

open Migration (Recorded Change Failure Choice)

variable {σ : Type} [Store σ]

def takeTicket (s : Session σ) : Nat × Session σ :=
  let m := s.migration
  (m.nextTurn, { s with migration :=
    { m with turns := m.turns ++ [m.nextTurn], nextTurn := m.nextTurn + 1 } })

def takeTurn : Task σ Unit := do
  let ticket ← .modifyGet takeTicket
  .await (.turn ticket)

def endTurn : Task σ Unit :=
  .modify fun s => { s with migration := { s.migration with turns := s.migration.turns.tail } }

def writeSetting (w : SettingWrite) : Task σ (Except StoreError Unit) := do
  .await (.write w)
  .modifyGet fun s =>
    let (result, store) := Store.write s.store w
    (result, { s with store })

/-- Writes all changes one after the other, and answers those that failed. What a change is merged with
is read just before. -/
def writeChanges (resource : Option Url) : List Change → Task σ (List Failure)
  | [] => pure []
  | c :: rest => do
    let current := Store.inspect (← .get).store c.key resource
    let result ← writeSetting (c.toWrite resource current)
    let failures ← writeChanges resource rest
    match result with
    | .ok () => pure failures
    | .error e => pure (⟨c.key, c.tier, e⟩ :: failures)

/-- Does what waited for the end of an update. -/
def runContinuation (c : Continuation) (s : Session σ) : Session σ :=
  match c with
  | .configurationChanged => s.enqueue .configurationChanged
  | .named name => { s with ran := s.ran ++ [name] }

/-- Keeps something until the running update ends, in place of what was kept before. Answers whether
there is such an update. -/
def defer (c : Continuation) (s : Session σ) : Bool × Session σ :=
  match s.migration.inFlight with
  | some _ => (true, { s with migration := { s.migration with inFlight := some (some c) } })
  | none => (false, s)

def beginUpdate (s : Session σ) : Session σ :=
  { s with migration := { s.migration with inFlight := some (some .configurationChanged) } }

/-- Does what was kept, and keeps it no longer. -/
def runPending (s : Session σ) : Session σ :=
  match s.migration.inFlight with
  | some (some c) =>
    runContinuation c { s with migration := { s.migration with inFlight := some none } }
  | _ => s

def endUpdate (s : Session σ) : Session σ :=
  let s := runPending s
  { s with migration := { s.migration with inFlight := none } }

inductive MigrationOutcome where
  /-- The user is not asked. -/
  | suppressed
  | notNeeded
  /-- The user chose something else. -/
  | declined (choice : Option Choice)
  | applied
  | failed
deriving DecidableEq

/-- Writes a recorded migration, and then does what waited for that. -/
def update (r : Recorded) : Task σ (List Failure) := do
  let failures ← writeChanges r.resource r.changes
  .modify runPending
  pure failures

def apply (r : Recorded) : Task σ MigrationOutcome := do
  .modify beginUpdate
  let failures ← update r
  .modify endUpdate
  if failures.isEmpty then pure .applied
  else
    announceLater .error
      ("Failed to migrate the ESLint settings. Check the output for details. (" ++
        Migration.failureMessage failures ++ ")") showOutputTitle
    pure .failed

/-- What a migration would change now. Old working directories are left as they are, which is logged. -/
def recordMigration (resource : Option Url) : Task σ Recorded := do
  let snapshot := Migration.Snapshot.take (← .get).store resource
  for (tier, count) in Migration.legacyReport snapshot do
    writeLog .debug ("Leaving legacy working directory entries in place target=" ++ tier.name ++
      " legacy=" ++ toString count)
  pure (Migration.record snapshot resource)

/-- The setting that turns the question off; only its global tier counts. -/
def promptsKey : String := "eslint.migration.2_x"

def docsUrl : String := "https://github.com/microsoft/vscode-eslint#settings-migration"

/-- The question whether settings are to be migrated. -/
def question : Window.Message where
  level := .info
  text := "The ESLint 'autoFixOnSave' setting needs to be migrated to the new " ++
    "'editor.codeActionsOnSave' setting. Do you want to migrate the setting?"
  actions := Choice.all.map (·.title)
  modal := true

/-- Whether the user may be asked. What is no such setting does not forbid it. -/
def promptsEnabled (store : σ) (resource : Url) : Bool :=
  match (Store.inspect store promptsKey (some resource)).global with
  | none => true
  | some v =>
    match Settings.MigrationPrompts.decode v with
    | .ok p => p = .on
    | .error _ => true

def dismiss (s : Session σ) : Session σ :=
  { s with migration := { s.migration with dismissed := true } }

/-- Asks whether to migrate the settings of a resource if there is something to migrate, and does so. -/
def promptMigration (resource : Url) : Task σ MigrationOutcome := do
  let s ← .get
  if s.migration.dismissed || !promptsEnabled s.store resource then return .suppressed
  let r ← recordMigration (some resource)
  if !r.needsUpdate then return .notNeeded
  let choice := (← showMessage question).bind Choice.ofTitle?
  match choice with
  | some .migrate => apply r
  | some .never =>
    let _ ← writeSetting ⟨promptsKey, some (.str "off"), .global, none⟩
    return .declined choice
  | some .docs =>
    .modify dismiss
    let _ ← openExternal docsUrl
    return .declined choice
  | some .notNow | none =>
    .modify dismiss
    return .declined choice

/-- The settings of a document, after the user was asked to migrate them. -/
def settingsFor (resource : Url) : Task σ Settings.Record := do
  takeTurn
  let _ ← promptMigration resource
  let s ← .get
  endTurn
  pure (documentSettings s.store s.failures s.documents resource)

/-- The resource that an item asks for: only whole records of URLs are given. -/
def itemResource (item : Protocol.ConfigurationItem) : Option Url :=
  match item.sectionName, item.scopeUri with
  | none, some uri => (Url.parse uri).toOption
  | _, _ => none

/-- The answers to a list of items, in their order. -/
def configuration : List Protocol.ConfigurationItem → Task σ (List Json)
  | [] => pure []
  | item :: rest => do
    let answer ← match itemResource item with
      | some resource => do pure (← settingsFor resource).toJson
      | none => pure .null
    pure (answer :: (← configuration rest))

/-- Migrates the settings of a resource without asking. -/
def migrateNow (resource : Option Url) : Task σ MigrationOutcome := do
  takeTurn
  let r ← recordMigration resource
  let outcome ← if r.needsUpdate then apply r else pure .notNeeded
  endTurn
  if outcome = .notNeeded then
    let _ ← showMessage
      ⟨.info, "ESLint settings are up to date. No migration needed.", [], false⟩
  pure outcome

end LinterClient.Session
