import LinterClient.Proofs.Session.Handling
import LinterClient.Proofs.Task.Bystanders

/-!
What the client does for a request of its server.

Migrations, questions and notes of what the server reports leave alone connections, documents, failed
probes and what the client keeps, and start no job but announcements.
-/

namespace LinterClient

/-- A job that only shows a message. -/
def Job.IsAnnouncement (job : Job) : Prop :=
  ∃ m action, job = .announce m action

namespace Session

open Program (Always)

variable {σ α : Type}

/-- Whatever a task finds, it leaves alone what is the client's own. -/
def Sparing (task : Task σ α) : Prop :=
  Always Spares Job.IsAnnouncement (fun _ => True) task

namespace Sparing

theorem writeLog (level : LogLevel) (text : String) :
    Sparing (Session.writeLog level text : Task σ Unit) :=
  .modify fun _ => ⟨rfl, rfl, rfl, rfl⟩

theorem showMessage (m : Window.Message) :
    Sparing (Session.showMessage m : Task σ (Option String)) :=
  .bind (.modifyGet fun _ => ⟨rfl, rfl, rfl, rfl⟩) fun _ => .bind (.await _) fun _ =>
    .modifyGet fun _ => ⟨rfl, rfl, rfl, rfl⟩

theorem openExternal (url : String) : Sparing (Session.openExternal url : Task σ Bool) :=
  .modifyGet fun _ => ⟨rfl, rfl, rfl, rfl⟩

theorem announce (m : Window.Message) (action : String) :
    Sparing (Session.announce m action : Task σ Unit) := by
  refine .bind (showMessage m) fun answer => ?_
  split
  · exact .modify fun _ => ⟨rfl, rfl, rfl, rfl⟩
  · exact .done trivial

theorem announceLater (level : Window.Level) (text action : String) :
    Sparing (Session.announceLater level text action : Task σ Unit) :=
  .start ⟨_, _, rfl⟩

section Migrating

variable [Store σ]

omit [Store σ] in
theorem takeTurn : Sparing (Session.takeTurn : Task σ Unit) :=
  .bind (.modifyGet fun _ => ⟨rfl, rfl, rfl, rfl⟩) fun _ => .await _

theorem writeSetting (w : SettingWrite) :
    Sparing (Session.writeSetting w : Task σ (Except StoreError Unit)) :=
  .bind (.await _) fun _ => .modifyGet fun _ => ⟨rfl, rfl, rfl, rfl⟩

theorem writeChanges (resource : Option Url) (changes : List Migration.Change) :
    Sparing (Session.writeChanges resource changes : Task σ (List Migration.Failure)) := by
  induction changes with
  | nil => exact .done trivial
  | cons c rest ih =>
    refine .bind .get fun s => .bind (writeSetting _) fun result => .bind ih fun failures => ?_
    cases result <;> exact .done trivial

theorem apply (r : Migration.Recorded) :
    Sparing (Session.apply r : Task σ MigrationOutcome) := by
  refine .bind (.modify fun _ => ⟨rfl, rfl, rfl, rfl⟩) fun _ => .bind ?_ fun failures =>
    .bind (.modify fun s => ?_) fun _ => ?_
  · exact .bind (writeChanges _ _) fun _ => .bind (.modify spares_runPending) fun _ => .done trivial
  · obtain ⟨connections, client, documents, failures⟩ := spares_runPending s
    exact ⟨connections, client, documents, failures⟩
  · split
    · exact .done trivial
    · exact .bind (announceLater _ _ _) fun _ => .done trivial

theorem recordMigration (resource : Option Url) :
    Sparing (Session.recordMigration resource : Task σ Migration.Recorded) :=
  .bind .get fun _ => .bind (.forIn _ fun _ => writeLog _ _) fun _ => .done trivial

theorem promptMigration (resource : Url) :
    Sparing (Session.promptMigration resource : Task σ MigrationOutcome) := by
  have dismisses {next : Task σ MigrationOutcome} (rest : Sparing next) :
      Sparing (do .modify dismiss; next : Task σ MigrationOutcome) :=
    .bind (.modify fun _ => ⟨rfl, rfl, rfl, rfl⟩) fun _ => rest
  refine .bind .get fun s => ?_
  split
  · exact .done trivial
  refine .bind (recordMigration _) fun r => ?_
  split
  · exact .done trivial
  refine .bind (showMessage _) fun answer => ?_
  dsimp only
  split
  · exact apply _
  · exact .bind (writeSetting _) fun _ => .done trivial
  · exact dismisses (.bind (openExternal _) fun _ => .done trivial)
  · exact dismisses (.done trivial)
  · exact dismisses (.done trivial)

theorem settingsFor (resource : Url) :
    Sparing (Session.settingsFor resource : Task σ Settings.Record) :=
  .bind takeTurn fun _ => .bind (promptMigration _) fun _ => .bind .get fun _ =>
    .bind (.modify fun _ => ⟨rfl, rfl, rfl, rfl⟩) fun _ => .done trivial

theorem configuration (items : List Protocol.ConfigurationItem) :
    Sparing (Session.configuration items : Task σ (List Json)) := by
  induction items with
  | nil => exact .done trivial
  | cons item rest ih =>
    have goes (answer : Json) : Sparing (do
        return answer :: (← Session.configuration rest) : Task σ (List Json)) :=
      .bind ih fun _ => .done trivial
    rw [Session.configuration]
    split
    · exact .bind (settingsFor _) fun _ => goes _
    · exact goes _

theorem migrateNow (resource : Option Url) :
    Sparing (Session.migrateNow resource : Task σ MigrationOutcome) := by
  refine .bind takeTurn fun _ => .bind (recordMigration _) fun r => ?_
  have leaves (outcome : MigrationOutcome) : Sparing (do
      endTurn
      if outcome = .notNeeded then
        let _ ← Session.showMessage
          ⟨.info, "ESLint settings are up to date. No migration needed.", [], false⟩
      pure outcome : Task σ MigrationOutcome) := by
    refine .bind (.modify fun _ => ⟨rfl, rfl, rfl, rfl⟩) fun _ => ?_
    dsimp only
    split
    · exact .bind (showMessage _) fun _ => .done trivial
    · exact .done trivial
  dsimp only
  split
  · exact .bind (apply _) leaves
  · exact leaves _

end Migrating

section Answering

variable [Host σ]

theorem missingConfiguration (p : Protocol.NoConfigParams) :
    Sparing (Session.missingConfiguration p : Task σ Unit) :=
  .bind .get fun _ => .bind (writeLog _ _) fun _ => .modify fun _ => ⟨rfl, rfl, rfl, rfl⟩

theorem missingLibrary (p : Protocol.NoLibraryParams) :
    Sparing (Session.missingLibrary p : Task σ Unit) := by
  refine .bind .get fun s => .bind (writeLog _ _) fun _ => ?_
  dsimp only
  split
  · exact .bind (.modifyGet fun _ => ⟨rfl, rfl, rfl, rfl⟩) fun _ => announceLater _ _ _
  · exact .done trivial

omit [Host σ] in
theorem parsed (d : Json.Decoder α) (method : String) (params : Json) {f : α → Task σ Json}
    (each : ∀ a, Sparing (f a)) : Sparing
      (Session.parsed d method params f : Task σ (Except Protocol.Error Json)) := by
  unfold Session.parsed
  split
  · exact .bind (each _) fun _ => .done trivial
  · exact .done trivial

theorem handle (method : String) (params : Json) :
    Sparing (Session.handle method params : Task σ (Except Protocol.Error Json)) := by
  unfold Session.handle
  split
  · exact parsed _ _ _ fun _ => .bind (configuration _) fun _ => .done trivial
  · exact parsed _ _ _ fun _ => .bind (missingConfiguration _) fun _ => .done trivial
  · exact parsed _ _ _ fun _ => .bind (missingLibrary _) fun _ => .done trivial
  · exact parsed _ _ _ fun _ => .bind (openExternal _) fun _ => .done trivial
  · exact parsed _ _ _ fun _ =>
      .bind (.modify fun _ => ⟨rfl, rfl, rfl, rfl⟩) fun _ => .done trivial
  · exact .done trivial

end Answering

end Sparing

end Session

end LinterClient
