import LinterClient.Proofs.Migration.Changes
import LinterClient.Proofs.Session.Roles

/-!
The calls of a session keep to their roles.
-/

namespace LinterClient.Session

open Migration (Change Choice Recorded)

variable {σ : Type} [Store σ]
variable {b : List (Url × Settings.Record)} {r : Role} {s : Session σ} {t : Nat}

theorem takeTurn_keeps {post : Unit → Role → Session σ → Prop}
    (goes : ∀ t s', post () ⟨.holding t .fresh, b⟩ s') :
    takeTurn.Keeps conduct ready post ⟨.idle, b⟩ s := by
  rw [takeTurn, Program.keeps_bind, Program.keeps_modifyGet]
  refine ⟨_, .queue, ?_⟩
  rw [Program.keeps_await]
  exact ⟨_, .turn, fun s' isReady => ⟨_, .turn (of_decide_eq_true isReady), goes _ s'⟩⟩

theorem writeLog_keeps {level : LogLevel} {text : String} {post : Unit → Role → Session σ → Prop}
    (goes : ∀ s', Alike s s' → post () r s') :
    (writeLog level text).Keeps conduct ready post r s :=
  ⟨r, .aside (alike_addLog level text s), goes _ (alike_addLog level text s)⟩

theorem forIn_writeLog_keeps {β : Type} (l : List β) (level : LogLevel) (text : β → String)
    {post : PUnit → Role → Session σ → Prop} (goes : ∀ s', Alike s s' → post ⟨⟩ r s') :
    (forIn l PUnit.unit fun x _ => do
      writeLog level (text x)
      pure (ForInStep.yield PUnit.unit) : Task σ PUnit).Keeps conduct ready post r s := by
  induction l generalizing s with
  | nil => exact goes s (.refl s)
  | cons x l ih =>
    rw [List.forIn_cons, Program.keeps_bind, Program.keeps_bind]
    exact writeLog_keeps fun s' alike => ih fun s'' more => goes s'' (alike.trans more)

theorem recordMigration_keeps {resource : Option Url} {post : Recorded → Role → Session σ → Prop}
    (goes : ∀ r' s', Alike s s' → RecordedIn s'.store r' → post r' r s') :
    (recordMigration resource).Keeps conduct ready post r s := by
  rw [recordMigration, Program.keeps_bind, Program.keeps_get, Program.keeps_bind]
  refine forIn_writeLog_keeps _ _ _ fun s' alike => goes _ s' alike ⟨resource, ?_⟩
  rw [alike.store]

theorem writeChanges_keeps {resource : Option Url} {left : List Change}
    {post : List Migration.Failure → Role → Session σ → Prop}
    (other : ∀ c ∈ left, KeyPath.Apart (KeyPath.segments c.key) (KeyPath.segments promptsKey))
    (goes : ∀ failures s', post failures ⟨.holding t (.writing resource []), b⟩ s') :
    (writeChanges resource left).Keeps conduct ready post ⟨.holding t (.writing resource left), b⟩ s := by
  induction left generalizing s post with
  | nil => exact goes [] s
  | cons c left ih =>
    rw [writeChanges, Program.keeps_bind, Program.keeps_get, Program.keeps_bind, writeSetting,
      Program.keeps_bind, Program.keeps_await]
    have apart := other c (by simp)
    refine ⟨_, .pause (.attempt apart.ne), fun s' _ => ⟨_, .same (by simp), ?_⟩⟩
    rw [Program.keeps_modifyGet]
    refine ⟨_, .proceed (.write apart), ?_⟩
    rw [Program.keeps_bind]
    refine ih (fun c member => other c (by simp [member])) fun failures s'' => ?_
    split
    · exact goes failures s''
    · exact goes _ s''

theorem apply_keeps {r : Recorded} {stage : Stage} {post : MigrationOutcome → Role → Session σ → Prop}
    (starts : stage = .answered (some .migrate) r ∨ stage = .fresh ∧ RecordedIn s.store r)
    (some : r.changes ≠ [])
    (other : ∀ c ∈ r.changes, KeyPath.Apart (KeyPath.segments c.key) (KeyPath.segments promptsKey))
    (goes : ∀ outcome s', post outcome ⟨.holding t .leaving, b⟩ s') :
    (apply r).Keeps conduct ready post ⟨.holding t stage, b⟩ s := by
  rw [apply, Program.keeps_bind, Program.keeps_modify]
  refine ⟨_, .proceed (.start starts some), ?_⟩
  rw [Program.keeps_bind, update, Program.keeps_bind]
  refine writeChanges_keeps other fun failures s' => ?_
  rw [Program.keeps_bind, Program.keeps_modify]
  refine ⟨_, .proceed .finish, ?_⟩
  rw [Program.keeps_pure, Program.keeps_bind, Program.keeps_modify]
  refine ⟨_, .proceed .close, ?_⟩
  split
  · exact goes _ _
  · rw [Program.keeps_bind, announceLater, Program.keeps_start]
    exact goes _ _

omit [Store σ] in
theorem segments_promptsKey : KeyPath.segments promptsKey = ["eslint", "migration", "2_x"] := by decide

theorem apart_promptsKey {store : σ} {r : Recorded} (recorded : RecordedIn store r) :
    ∀ c ∈ r.changes, KeyPath.Apart (KeyPath.segments c.key) (KeyPath.segments promptsKey) := by
  obtain ⟨resource, rfl⟩ := recorded
  intro c member
  rw [segments_promptsKey]
  exact (Migration.changeOf_of_mem member).apart_linter ["migration", "2_x"]

omit [Store σ] in
theorem changes_ne_nil {r : Recorded} (needed : ¬ (!r.needsUpdate) = true) : r.changes ≠ [] := by
  intro none
  rw [Migration.Recorded.changes_eq_nil_iff] at none
  exact needed (by rw [none]; rfl)

theorem openExternal_keeps {url : String} {post : Bool → Role → Session σ → Prop}
    (goes : ∀ canOpen s', post canOpen r s') : (openExternal url).Keeps conduct ready post r s := by
  rw [openExternal, Program.keeps_modifyGet]
  exact ⟨r, .aside (alike_push (by simp) s), goes _ _⟩

omit [Store σ] in
theorem takeAnswer_of_lookup {message : Nat} {answer : Option String}
    (found : s.window.answers.lookup message = some answer) : (takeAnswer message s).1 = answer := by
  show (s.window.answers.lookup message).join = answer
  rw [found]
  rfl

/-- The user is asked only in the turn of a call, and answers before anybody else has one. -/
theorem promptMigration_keeps {uri : Url} {post : MigrationOutcome → Role → Session σ → Prop}
    (goes : ∀ outcome stage s', stage = .fresh ∨ stage = .leaving →
      post outcome ⟨.holding t stage, b⟩ s') :
    (promptMigration uri).Keeps conduct ready post ⟨.holding t .fresh, b⟩ s := by
  rw [promptMigration, Program.keeps_bind, Program.keeps_get]
  split
  · exact goes _ _ s (.inl rfl)
  rename_i enabled
  rw [Program.keeps_bind]
  refine recordMigration_keeps fun r s' alike recorded => ?_
  split
  · exact goes _ _ s' (.inl rfl)
  rename_i needed
  -- The session was looked at in this turn, and logging did not change whether to ask.
  simp only [Bool.or_eq_true, not_or, Bool.not_eq_true, Bool.not_eq_eq_eq_not, Bool.not_true,
    Bool.not_eq_false] at enabled
  have allowed : s'.migration.dismissed = false := by
    rw [alike.migration]
    exact enabled.1
  have prompts : promptsEnabled s'.store uri = true := by
    rw [alike.store]
    exact enabled.2
  rw [showMessage, Program.keeps_bind, Program.keeps_bind, Program.keeps_modifyGet]
  refine ⟨_, .proceed (.ask allowed recorded prompts), ?_⟩
  rw [Program.keeps_bind, Program.keeps_await]
  refine ⟨_, .pause .question, fun s'' isReady => ⟨_, .same (by simp), ?_⟩⟩
  obtain ⟨answer, found⟩ := Option.isSome_iff_exists.mp isReady
  rw [Program.keeps_modifyGet, takeAnswer_of_lookup found]
  refine ⟨_, .proceed (.hear found), ?_⟩
  cases answer.bind Choice.ofTitle? with
  | none => exact ⟨_, .proceed (.dismiss (by simp [Declines])), goes _ _ _ (.inr rfl)⟩
  | some choice =>
    cases choice with
    | migrate =>
      exact apply_keeps (.inl rfl) (changes_ne_nil needed) (apart_promptsKey recorded)
        fun outcome s => goes outcome _ s (.inr rfl)
    | never =>
      refine ⟨_, .pause .silencing, fun s _ => ⟨_, .same (by simp), ?_⟩⟩
      exact ⟨_, .proceed .silence, goes _ _ _ (.inr rfl)⟩
    | docs =>
      refine ⟨_, .proceed (.dismiss (by simp [Declines])), ?_⟩
      exact openExternal_keeps fun _ s => goes _ _ s (.inr rfl)
    | notNow => exact ⟨_, .proceed (.dismiss (by simp [Declines])), goes _ _ _ (.inr rfl)⟩

theorem settingsFor_keeps {uri : Url} {post : Settings.Record → Role → Session σ → Prop}
    (goes : ∀ record s', post record ⟨.idle, b ++ [(uri, record)]⟩ s') :
    (settingsFor uri).Keeps conduct ready post ⟨.idle, b⟩ s := by
  rw [settingsFor, Program.keeps_bind]
  refine takeTurn_keeps fun t s' => ?_
  rw [Program.keeps_bind]
  refine promptMigration_keeps fun _ stage s'' ended => ?_
  rw [Program.keeps_bind, Program.keeps_get, Program.keeps_bind, endTurn, Program.keeps_modify]
  exact ⟨_, .leave ended (by simp [settingsNow]), goes _ _⟩

/-- An answer to an item, from the records that were built: a record, or nothing if none is given. -/
def AnswersItem (built : List (Url × Settings.Record)) (item : Protocol.ConfigurationItem)
    (answer : Json) : Prop :=
  match itemResource item with
  | some uri => ∃ record, (uri, record) ∈ built ∧ answer = record.toJson
  | none => answer = .null

theorem configuration_keeps {items : List Protocol.ConfigurationItem}
    {post : List Json → Role → Session σ → Prop}
    (goes : ∀ answers new s', List.Forall₂ (AnswersItem (b ++ new)) items answers →
      post answers ⟨.idle, b ++ new⟩ s') :
    (configuration items).Keeps conduct ready post ⟨.idle, b⟩ s := by
  induction items generalizing b s post with
  | nil =>
    rw [configuration, Program.keeps_pure]
    simpa using goes [] [] s .nil
  | cons item items ih =>
    rw [configuration]
    cases resource : itemResource item with
    | none =>
      dsimp only
      rw [Program.keeps_bind, Program.keeps_pure, Program.keeps_bind]
      refine ih fun answers new s' all => goes _ new s' (.cons ?_ all)
      simp [AnswersItem, resource]
    | some uri =>
      dsimp only
      rw [Program.keeps_bind]
      refine settingsFor_keeps fun record s' => ?_
      rw [Program.keeps_bind, Program.keeps_pure, Program.keeps_bind]
      refine ih fun answers new s'' all => ?_
      rw [List.append_assoc] at all ⊢
      refine goes _ _ s'' (.cons ?_ all)
      simp only [AnswersItem, resource]
      exact ⟨record, by simp, rfl⟩

theorem showMessage_keeps {m : Window.Message} (free : m.modal = false)
    {post : Option String → Role → Session σ → Prop} (goes : ∀ answer s', post answer ⟨.idle, b⟩ s') :
    (showMessage m).Keeps conduct ready post ⟨.idle, b⟩ s := by
  rw [showMessage, Program.keeps_bind, Program.keeps_modifyGet]
  refine ⟨_, .tell free, ?_⟩
  rw [Program.keeps_bind, Program.keeps_await]
  refine ⟨_, .message, fun s' isReady => ⟨_, .same (by simp), ?_⟩⟩
  obtain ⟨answer, found⟩ := Option.isSome_iff_exists.mp isReady
  exact ⟨_, .attend found, goes _ _⟩

/-- A call that migrated without asking gives the turn back before it tells the user anything. -/
theorem endTurn_keeps {outcome : MigrationOutcome} {stage : Stage} {m : Window.Message}
    (ended : stage = .fresh ∨ stage = .leaving) (free : m.modal = false)
    {post : MigrationOutcome → Role → Session σ → Prop} (goes : ∀ s', post outcome ⟨.idle, b⟩ s') :
    (do
      endTurn
      if outcome = .notNeeded then
        let _ ← showMessage m
      pure outcome : Task σ MigrationOutcome).Keeps conduct ready post ⟨.holding t stage, b⟩ s := by
  have leaves : Act ⟨.holding t stage, b⟩ s ⟨.idle, b ++ []⟩ (turnEnded s) := .leave ended (by simp)
  rw [List.append_nil] at leaves
  rw [Program.keeps_bind, endTurn, Program.keeps_modify]
  refine ⟨_, leaves, ?_⟩
  dsimp only
  split
  · rw [Program.keeps_bind]
    exact showMessage_keeps free fun _ s' => goes s'
  · exact goes _

theorem migrateNow_keeps {resource : Option Url} {post : MigrationOutcome → Role → Session σ → Prop}
    (goes : ∀ outcome s', post outcome ⟨.idle, b⟩ s') :
    (migrateNow resource).Keeps conduct ready post ⟨.idle, b⟩ s := by
  rw [migrateNow, Program.keeps_bind]
  refine takeTurn_keeps fun t s' => ?_
  rw [Program.keeps_bind]
  refine recordMigration_keeps fun r s'' _ recorded => ?_
  dsimp only
  split
  · rename_i needed
    rw [Program.keeps_bind]
    exact apply_keeps (.inr ⟨rfl, recorded⟩) (changes_ne_nil (by simp [needed]))
      (apart_promptsKey recorded) fun outcome _ => endTurn_keeps (.inr rfl) rfl (goes outcome)
  · exact endTurn_keeps (.inl rfl) rfl (goes _)

theorem announce_keeps {m : Window.Message} (free : m.modal = false) {action : String}
    {post : Unit → Role → Session σ → Prop} (goes : ∀ s', post () ⟨.idle, b⟩ s') :
    (announce m action).Keeps conduct ready post ⟨.idle, b⟩ s := by
  rw [announce, Program.keeps_bind]
  refine showMessage_keeps free fun answer s' => ?_
  split
  · rw [showOutput, Program.keeps_modify]
    exact ⟨_, .aside (alike_push (by simp) _), goes _⟩
  · exact goes s'

def Answers (built : List (Url × Settings.Record)) : Call → Answer → Prop
  | .settings uri, .record record => (uri, record) ∈ built
  | .configuration items, .values answers => List.Forall₂ (AnswersItem built) items answers
  | .migrate _, .outcome _ => True
  | .announce .., .told => True
  | _, _ => False

def Ends (call : Call) (a : Answer) (r : Role) : Prop :=
  r.place = .idle ∧ Answers r.built call a

theorem callTask_keeps (call : Call) :
    (callTask call).Keeps conduct ready (fun a r _ => Ends call a r) ⟨.idle, []⟩ s := by
  cases call with
  | settings uri =>
    rw [callTask, Program.keeps_bind]
    exact settingsFor_keeps fun record _ => ⟨rfl, by simp [Answers]⟩
  | configuration items =>
    rw [callTask, Program.keeps_bind]
    exact configuration_keeps fun answers new _ all => ⟨rfl, all⟩
  | migrate resource =>
    rw [callTask, Program.keeps_bind]
    exact migrateNow_keeps fun outcome _ => ⟨rfl, trivial⟩
  | announce level text action =>
    rw [callTask, Program.keeps_bind]
    exact announce_keeps rfl fun _ => ⟨rfl, trivial⟩

theorem begins_configuration (items : List Protocol.ConfigurationItem) :
    (configuration items : Task σ (List Json)).Begins := by
  induction items with
  | nil => exact Program.begins_pure []
  | cons item items ih =>
    rw [configuration]
    have rest (answer : Json) : (do pure (answer :: (← configuration items)) : Task σ _).Begins :=
      ih.bind fun _ => Program.begins_pure _
    dsimp only
    split
    · exact Program.begins_read _
    · exact (Program.begins_pure _).bind rest

theorem begins_callTask (call : Call) : (callTask call : Task σ Answer).Begins := by
  cases call with
  | configuration items => exact (begins_configuration items).bind fun _ => Program.begins_pure _
  | _ => exact Program.begins_read _

theorem callTask_stands (call : Call) :
    (callTask call : Task σ Answer).Stands conduct ready (Ends call) ⟨.idle, []⟩ :=
  .ready (begins_callTask call) fun _ => callTask_keeps call

end LinterClient.Session
