import LinterClient.Proofs.Session.Sending
import LinterClient.Proofs.Task.Goes
import LinterClient.Session.Serving

/-!
What the reader of a connection does in one go.

Between two goes the reader waits for a message, or for room to get rid of what a message made
necessary. Each go takes at most one message.
-/

namespace LinterClient.Session

open Json (Members)
open Protocol (Incoming)

variable {σ : Type}

/-- The rules of the jobs of a client, with a handler for the requests of the server. -/
def jobRules [Host σ] (handler : String → Json → Task σ (Except Protocol.Error Json)) :
    Rules (Session σ) Wait Job :=
  ⟨ready, runJob handler⟩

/-- What a task does next: a job that ended may name another one. -/
def continued [Host σ] (handler : String → Json → Task σ (Except Protocol.Error Json)) :
    Program.Pause (Session σ) Wait Job (Option Job) → Task σ (Option Job)
  | .done (some job) => runJob handler job
  | stop => stop.program

/-- What a reader finds: a message, or the end of all that the server writes. -/
inductive Finding where
  | message (value : Json)
  | ended
deriving DecidableEq

/-- What a reader finds when it goes on. -/
def finding? (i : Nat) (task : Task σ (Option Job)) (s : Session σ) : Option Finding :=
  if task.waitsFor? = some (.incoming i) then
    (s.connection? i).bind fun c =>
      match c.abandoned, c.next with
      | false, .message value _ => some (.message value)
      | false, .finished => some .ended
      | false, .failed _ => some .ended
      | _, _ => none
  else none

/-- Where a reader stands. -/
inductive ReaderStand where
  | idle
  | acknowledging (id : Json)
  | noting (e : ServerEvent)
  | reporting (reason : StopReason)
  | ended

def reportStop (i : Nat) (reason : StopReason) : Task σ Unit := do
  addEvent i (.stopped reason)
  .modify (changeConnection i fun c => { c with reading := false })

def ReaderStand.task (i : Nat) : ReaderStand → Task σ (Option Job)
  | .idle => reader i
  | .acknowledging id => do
    let _ ← send i (.frame (Protocol.response id (.ok .null)))
    pure (some (.reader i))
  | .noting e => do
    addEvent i e
    pure (some (.reader i))
  | .reporting reason => do
    reportStop i reason
    pure none
  | .ended => pure none

/-- A message is handled at once, up to where the reader has to wait for room. -/
inductive Handles (i : Nat) (value : Json) (s : Session σ) :
    ReaderStand → Session σ → List Job → Prop where
  | ignores : Incoming.ofJson? value = none → Handles i value s .idle s []
  | delivers {id : Nat} {body : Members} : Incoming.ofJson? value = some (.response id body) →
    Handles i value s .idle (changeConnection i (·.deliver id body) s) []
  | acknowledges {id : Json} {method : String} {params : Json} :
    Incoming.ofJson? value = some (.request id method params) → isRegistration method = true →
      Handles i value s (.acknowledging id) s []
  | asks {id : Json} {method : String} {params : Json} :
    Incoming.ofJson? value = some (.request id method params) → isRegistration method = false →
      Handles i value s .idle s [.answer i id method params]
  | logs {method : String} {params : Json} {s' : Session σ} :
    Incoming.ofJson? value = some (.notification method params) → s'.connections = s.connections →
      method = "window/logMessage" → Handles i value s .idle s' []
  | notes {method : String} {params : Json} :
    Incoming.ofJson? value = some (.notification method params) → method ≠ "window/logMessage" →
      Handles i value s (.noting (.notification method params)) s []

/-- What a reader does in one go: what it finds, where it stands then, and the jobs that it starts. -/
inductive ReaderGoes (i : Nat) (s : Session σ) (c : Connection) :
    ReaderStand → Option Finding → ReaderStand → Session σ → List Job → Prop where
  | takes {value : Json} {rest : List UInt8} {stand : ReaderStand} {s' : Session σ} {jobs : List Job} :
    c.next = .message value rest →
      Handles i value (changeConnection i (fun c => { c with received := rest }) s) stand s' jobs →
        ReaderGoes i s c .idle (some (.message value)) stand s' jobs
  | rests : c.next = .wait → ReaderGoes i s c .idle none .idle s []
  | quits : c.abandoned = true → ReaderGoes i s c .idle none .ended s []
  | stops {reason : StopReason} :
    c.next = .finished ∧ reason = .exited ∨ (∃ e, c.next = .failed e ∧ reason = .failed e) →
    ReaderGoes i s c .idle (some .ended) (.reporting reason)
      (changeConnection i (fun c => { c with pending := [] }) s) []
  | acknowledges {id : Json} : ReaderGoes i s c (.acknowledging id) none .idle
      (enqueued i (.frame (Protocol.response id (.ok .null))) s) []
  | notes {e : ServerEvent} {s' : Session σ} :
    c.abandoned = true ∧ s' = s ∨ s' = changeConnection i (·.addEvent e) s →
      ReaderGoes i s c (.noting e) none .idle s' []
  | reports {reason : StopReason} {s' : Session σ} :
    c.abandoned = true ∧ s' = s ∨ s' = changeConnection i (·.addEvent (.stopped reason)) s →
      ReaderGoes i s c (.reporting reason) none .ended
        (changeConnection i (fun c => { c with reading := false }) s') []
  | remains : ReaderGoes i s c .ended none .ended s []

section Goes

variable {i : Nat} {s : Session σ} {c : Connection} {value : Json}
variable [Host σ] (handler : String → Json → Task σ (Except Protocol.Error Json))

theorem handles_dispatch (i : Nat) (value : Json) (s : Session σ) :
    let stop := (do
      dispatch i value
      pure (some (.reader i)) : Task σ (Option Job)).advance s
    ∃ stand : ReaderStand, continued handler stop.1 = stand.task i ∧
      Handles i value s stand stop.2.1 stop.2.2 := by
  intro stop
  have known : stop = (do
      dispatch i value
      pure (some (.reader i)) : Task σ (Option Job)).advance s := rfl
  clear_value stop
  unfold dispatch at known
  cases parsed : Incoming.ofJson? value with
  | none =>
    rw [parsed] at known
    subst known
    exact ⟨.idle, rfl, .ignores parsed⟩
  | some incoming =>
    rw [parsed] at known
    cases incoming with
    | response id body =>
      subst known
      exact ⟨.idle, rfl, .delivers parsed⟩
    | request id method params =>
      dsimp only at known
      cases registers : isRegistration method with
      | true =>
        rw [registers] at known
        subst known
        exact ⟨.acknowledging id, rfl, .acknowledges parsed registers⟩
      | false =>
        rw [registers] at known
        subst known
        exact ⟨.idle, rfl, .asks parsed registers⟩
    | notification method params =>
      dsimp only at known
      split at known
      · rename_i isLog
        subst known
        exact ⟨.idle, rfl, .logs parsed rfl isLog⟩
      · rename_i other
        subst known
        exact ⟨.noting (.notification method params), rfl, .notes parsed other⟩

omit [Host σ] in
theorem connection?_of_noted {s' : Session σ} {e : ServerEvent}
    (noted : c.abandoned = true ∧ s' = s ∨ s' = changeConnection i (·.addEvent e) s)
    (found : s.connection? i = some c) :
    ∃ events, s'.connection? i = some { c with events := events } := by
  rcases noted with ⟨-, rfl⟩ | rfl
  · exact ⟨c.events, found⟩
  · refine ⟨(c.addEvent e).events, (connection?_of_change found).trans ?_⟩
    unfold Connection.addEvent
    split <;> rfl

omit [Host σ] in
theorem finding?_of_other {task : Task σ (Option Job)} (other : task.waitsFor? ≠ some (.incoming i)) :
    finding? i task s = none :=
  if_neg other

omit [Host σ] in
theorem finding?_idle (found : s.connection? i = some c) : finding? i (reader i) s =
    match c.abandoned, c.next with
    | false, .message value _ => some (.message value)
    | false, .finished => some .ended
    | false, .failed _ => some .ended
    | _, _ => none := by
  have waits : (reader i : Task σ (Option Job)).waitsFor? = some (.incoming i) := rfl
  rw [finding?, if_pos waits, found]
  rfl

omit [Host σ] in
theorem addEvent_goes (e : ServerEvent) (next : Unit → Task σ (Option Job))
    (found : s.connection? i = some c) :
    ∃ s', (c.abandoned = true ∧ s' = s ∨ s' = changeConnection i (·.addEvent e) s) ∧
      (System.resume (addEvent i e >>= next)).advance s = (next ()).advance s' := by
  have goes : (System.resume (addEvent i e >>= next)).advance s =
      ((if !(s.connection? i).all (·.abandoned) then .modify (changeConnection i (·.addEvent e))
        else pure () : Task σ Unit) >>= next).advance s := rfl
  rw [goes, found, Option.all_some]
  cases abandoned : c.abandoned with
  | true => exact ⟨s, .inl ⟨rfl, rfl⟩, rfl⟩
  | false => exact ⟨_, .inr rfl, rfl⟩

theorem reader_goes (stand : ReaderStand) (found : s.connection? i = some c) :
    let stop := (System.resume (stand.task i)).advance s
    ∃ stand' : ReaderStand, continued handler stop.1 = stand'.task i ∧
      ReaderGoes i s c stand (finding? i (stand.task i) s) stand' stop.2.1 stop.2.2 := by
  cases stand with
  | ended => exact ⟨.ended, rfl, .remains⟩
  | acknowledging id =>
    have sent : (onConnection i false (·.enqueue (.frame (Protocol.response id (.ok .null)))) s).2 =
        enqueued i (.frame (Protocol.response id (.ok .null))) s := onConnection_snd _ _
    have goes : (System.resume (ReaderStand.acknowledging id |>.task i)).advance s =
        (.done (some (.reader i)), enqueued i (.frame (Protocol.response id (.ok .null))) s, []) := by
      rw [← sent]
      rfl
    rw [finding?_of_other (by exact nofun), goes]
    exact ⟨.idle, rfl, .acknowledges⟩
  | noting e =>
    obtain ⟨s', noted, goes⟩ := addEvent_goes e (fun _ => pure (some (.reader i))) found
    have whole : (System.resume (ReaderStand.noting e |>.task i)).advance s =
        (.done (some (.reader i)), s', []) := goes
    rw [finding?_of_other (by exact nofun), whole]
    exact ⟨.idle, rfl, .notes noted⟩
  | reporting reason =>
    obtain ⟨s', noted, goes⟩ := addEvent_goes (.stopped reason) (fun _ => do
      .modify (changeConnection i fun c => { c with reading := false })
      pure none) found
    have whole : (System.resume (ReaderStand.reporting reason |>.task i)).advance s =
        (.done none, changeConnection i (fun c => { c with reading := false }) s', []) := by
      rw [ReaderStand.task, reportStop, Program.bind_assoc]
      exact goes
    rw [finding?_of_other (by exact nofun), whole]
    exact ⟨.ended, rfl, .reports noted⟩
  | idle =>
    intro stop
    have known : stop = (System.resume (reader i)).advance s := rfl
    clear_value stop
    dsimp [reader, System.resume, Program.await, bind, Program.bind, Program.get, Program.advance] at known
    rw [ReaderStand.task, finding?_idle found]
    rw [found] at known
    dsimp only at known
    cases abandoned : c.abandoned with
    | true =>
      rw [abandoned] at known
      subst known
      exact ⟨.ended, rfl, .quits abandoned⟩
    | false =>
      rw [abandoned] at known
      cases next : c.next with
      | message value rest =>
        rw [next] at known
        subst known
        obtain ⟨stand, stands, handles⟩ := handles_dispatch handler i value
          (changeConnection i (fun c => { c with received := rest }) s)
        exact ⟨stand, stands, .takes next handles⟩
      | wait =>
        rw [next] at known
        subst known
        exact ⟨.idle, rfl, .rests next⟩
      | finished =>
        rw [next] at known
        subst known
        exact ⟨.reporting .exited, rfl, .stops (.inl ⟨next, rfl⟩)⟩
      | failed e =>
        rw [next] at known
        subst known
        exact ⟨.reporting (.failed e), rfl, .stops (.inr ⟨e, next, rfl⟩)⟩

end Goes

end LinterClient.Session
