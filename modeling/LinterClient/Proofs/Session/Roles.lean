import LinterClient.Proofs.KeyPath
import LinterClient.Proofs.Session.Calls

/-!
What a call may do, by where it stands.

A call takes a ticket and waits for its turn. In its turn it may ask the user, write a migration, or
turn the question off, and then it gives the turn back, with a record of settings or without one. The
places are the only thing that other proofs know of a call.
-/

namespace LinterClient.Session

open Migration (Change Choice Recorded Snapshot)

/-- How far a call is that has the turn. -/
inductive Stage where
  | fresh
  | asking (message : Nat) (r : Recorded)
  | answered (choice : Option Choice) (r : Recorded)
  /-- In the attempt to turn the question off. -/
  | silencing
  /-- Between two attempts of a migration, with the changes that are left. -/
  | writing (resource : Option Url) (left : List Change)
  /-- In an attempt of a migration, with the changes that are left after it. -/
  | attempting (w : SettingWrite) (resource : Option Url) (left : List Change)
  /-- After the last attempt. -/
  | ending
  | leaving

inductive Place where
  | idle
  /-- Something was told to the user. -/
  | told (message : Nat)
  | queued (ticket : Nat)
  | holding (ticket : Nat) (stage : Stage)

/-- A place, and the records of settings that were built before. -/
structure Role where
  place : Place
  built : List (Url × Settings.Record)

variable {σ : Type}

/-- The write that turns the question off. -/
def silencingWrite : SettingWrite :=
  ⟨promptsKey, some (.str "off"), .global, none⟩

def turnEnded (s : Session σ) : Session σ :=
  { s with migration := { s.migration with turns := s.migration.turns.tail } }

/-- Changes that concern neither migrations nor settings. -/
structure Alike (s s' : Session σ) : Prop extends Aside s s' where
  store : s'.store = s.store
  failures : s'.failures = s.failures
  documents : s'.documents = s.documents
  commands : s'.commands = s.commands
  connections : s'.connections = s.connections
  client : s'.client = s.client

/-- The answers after which the user is not asked again in a session. -/
def Declines (choice : Option Choice) : Prop :=
  choice ≠ some .migrate ∧ choice ≠ some .never

variable [Store σ]

/-- What the settings of a document are now. -/
def settingsNow (s : Session σ) (uri : Url) : Settings.Record :=
  documentSettings s.store s.failures s.documents uri

/-- A migration of what the store holds. -/
def RecordedIn (store : σ) (r : Recorded) : Prop :=
  ∃ resource, r = Migration.record (Snapshot.take store resource) resource

inductive Stage.Act : Stage → Session σ → Stage → Session σ → Prop where
  | ask {s : Session σ} {r : Recorded} {uri : Url} : s.migration.dismissed = false →
      RecordedIn s.store r → promptsEnabled s.store uri = true →
      Act .fresh s (.asking s.window.nextMessage r) (openMessage question s).2
  | hear {m : Nat} {s : Session σ} {r : Recorded} {answer : Option String} :
    s.window.answers.lookup m = some answer →
      Act (.asking m r) s (.answered (answer.bind Choice.ofTitle?) r) (takeAnswer m s).2
  | dismiss {choice : Option Choice} {s : Session σ} {r : Recorded} : Declines choice →
      Act (.answered choice r) s .leaving (dismiss s)
  | start {stage : Stage} {s : Session σ} {r : Recorded} :
    stage = .answered (some .migrate) r ∨ stage = .fresh ∧ RecordedIn s.store r → r.changes ≠ [] →
      Act stage s (.writing r.resource r.changes) (beginUpdate s)
  | write {w : SettingWrite} {resource : Option Url} {left : List Change} {s : Session σ} :
    KeyPath.Apart (KeyPath.segments w.key) (KeyPath.segments promptsKey) →
      Act (.attempting w resource left) s (.writing resource left)
      { s with store := (Store.write s.store w).2 }
  | finish {resource : Option Url} {s : Session σ} :
    Act (.writing resource []) s .ending (runPending s)
  | close {s : Session σ} : Act .ending s .leaving (endUpdate s)
  | silence {s : Session σ} :
    Act .silencing s .leaving { s with store := (Store.write s.store silencingWrite).2 }

/-- What a call does between two waits. -/
inductive Act : Role → Session σ → Role → Session σ → Prop where
  | aside {r : Role} {s s' : Session σ} : Alike s s' → Act r s r s'
  | tell {m : Window.Message} {b : List (Url × Settings.Record)} {s : Session σ} :
    m.modal = false → Act ⟨.idle, b⟩ s ⟨.told s.window.nextMessage, b⟩ (openMessage m s).2
  | attend {m : Nat} {b : List (Url × Settings.Record)} {s : Session σ} {answer : Option String} :
    s.window.answers.lookup m = some answer → Act ⟨.told m, b⟩ s ⟨.idle, b⟩ (takeAnswer m s).2
  | queue {b : List (Url × Settings.Record)} {s : Session σ} :
    Act ⟨.idle, b⟩ s ⟨.queued s.migration.nextTurn, b⟩ (takeTicket s).2
  | proceed {t : Nat} {stage stage' : Stage} {b : List (Url × Settings.Record)} {s s' : Session σ} :
    stage.Act s stage' s' → Act ⟨.holding t stage, b⟩ s ⟨.holding t stage', b⟩ s'
  | leave {t : Nat} {stage : Stage} {b new : List (Url × Settings.Record)} {s : Session σ} :
    stage = .fresh ∨ stage = .leaving → (∀ e ∈ new, e.2 = settingsNow s e.1) →
      Act ⟨.holding t stage, b⟩ s ⟨.idle, b ++ new⟩ (turnEnded s)

inductive Stage.Rest : Stage → Session σ → Wait → Stage → Prop where
  | question {m : Nat} {r : Recorded} {s : Session σ} : Rest (.asking m r) s (.answer m) (.asking m r)
  | silencing {r : Recorded} {s : Session σ} :
    Rest (.answered (some .never) r) s (.write silencingWrite) .silencing
  | attempt {resource : Option Url} {c : Change} {left : List Change} {s : Session σ} :
    c.key ≠ promptsKey →
      Rest (.writing resource (c :: left)) s
        (.write (c.toWrite resource (Store.inspect s.store c.key resource)))
        (.attempting (c.toWrite resource (Store.inspect s.store c.key resource)) resource left)

/-- What a call waits for, and where it stands meanwhile. -/
inductive Rest : Role → Session σ → Wait → Role → Prop where
  | message {m : Nat} {b : List (Url × Settings.Record)} {s : Session σ} :
    Rest ⟨.told m, b⟩ s (.answer m) ⟨.told m, b⟩
  | turn {t : Nat} {b : List (Url × Settings.Record)} {s : Session σ} :
    Rest ⟨.queued t, b⟩ s (.turn t) ⟨.queued t, b⟩
  | pause {t : Nat} {stage stage' : Stage} {b : List (Url × Settings.Record)} {s : Session σ}
    {on : Wait} : stage.Rest s on stage' → Rest ⟨.holding t stage, b⟩ s on ⟨.holding t stage', b⟩

inductive Wake : Role → Wait → Session σ → Role → Prop where
  | turn {t : Nat} {b : List (Url × Settings.Record)} {s : Session σ} :
    s.migration.turns.head? = some t → Wake ⟨.queued t, b⟩ (.turn t) s ⟨.holding t .fresh, b⟩
  | same {r : Role} {on : Wait} {s : Session σ} : (∀ t, r.place ≠ .queued t) → Wake r on s r

def conduct : Conduct (Session σ) Wait Role := ⟨Act, Rest, Wake⟩

omit [Store σ] in
theorem alike_addLog (level : LogLevel) (text : String) (s : Session σ) : Alike s (addLog level text s) :=
  ⟨⟨rfl, rfl, rfl, rfl, rfl, Nat.le_refl _⟩, rfl, rfl, rfl, rfl, rfl, rfl⟩

omit [Store σ] in
theorem alike_push {e : Window.Event} (other : e ≠ .message question) (s : Session σ) :
    Alike s (push e s) := by
  refine ⟨⟨rfl, rfl, rfl, rfl, ?_, Nat.le_refl _⟩, rfl, rfl, rfl, rfl, rfl, rfl⟩
  simp [asked, push, List.count_append, other]

omit [Store σ] in
theorem Alike.refl (s : Session σ) : Alike s s :=
  ⟨⟨rfl, rfl, rfl, rfl, rfl, Nat.le_refl _⟩, rfl, rfl, rfl, rfl, rfl, rfl⟩

omit [Store σ] in
theorem Alike.trans {s s' s'' : Session σ} (first : Alike s s') (second : Alike s' s'') : Alike s s'' where
  migration := second.migration.trans first.migration
  unanswered := second.unanswered.trans first.unanswered
  answers := second.answers.trans first.answers
  nextMessage := second.nextMessage.trans first.nextMessage
  asked := second.asked.trans first.asked
  pendingChanges := Nat.le_trans second.pendingChanges first.pendingChanges
  store := second.store.trans first.store
  failures := second.failures.trans first.failures
  documents := second.documents.trans first.documents
  commands := second.commands.trans first.commands
  connections := second.connections.trans first.connections
  client := second.client.trans first.client

end LinterClient.Session
