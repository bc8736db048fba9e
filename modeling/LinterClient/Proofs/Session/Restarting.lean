import LinterClient.Proofs.Restart
import LinterClient.Proofs.Session.Deeds
import LinterClient.Proofs.Session.Conduct

/-!
Servers that are started again after a crash.

Once a client knows that its server ended itself, no stop of a server makes it connect to another one.
It forgets that only when the user has the server restarted.
-/

namespace LinterClient.Session

variable {σ α β : Type}

/-- The client knows that its server ended itself. -/
def Resigned (s : Session σ) : Prop :=
  s.client.restart.exitCalled = true

/-- What is known of the server's end is not forgotten. -/
def Recalls (s s' : Session σ) : Prop :=
  Resigned s → Resigned s'

/-- It is not forgotten, and makes the client connect to no other server. -/
def Refrains (s s' : Session σ) : Prop :=
  Resigned s → Resigned s' ∧ s'.connections.length = s.connections.length

theorem Recalls.refl (s : Session σ) : Recalls s s :=
  id

theorem Recalls.trans {s s' s'' : Session σ} (first : Recalls s s') (next : Recalls s' s'') :
    Recalls s s'' :=
  next ∘ first

theorem Refrains.refl (s : Session σ) : Refrains s s :=
  fun resigned => ⟨resigned, rfl⟩

theorem Refrains.trans {s s' s'' : Session σ} (first : Refrains s s') (next : Refrains s' s'') :
    Refrains s s'' := by
  intro resigned
  obtain ⟨resigned, length⟩ := first resigned
  obtain ⟨resigned, length'⟩ := next resigned
  exact ⟨resigned, length'.trans length⟩

theorem Refrains.recalls {s s' : Session σ} (refrains : Refrains s s') : Recalls s s' :=
  fun resigned => (refrains resigned).1

theorem Refrains.of_same {s s' : Session σ} (restart : s'.client.restart = s.client.restart)
    (length : s'.connections.length = s.connections.length) : Refrains s s' := by
  intro resigned
  have same : Resigned s' = Resigned s := by rw [Resigned, Resigned, restart]
  exact ⟨same ▸ resigned, length⟩

theorem Refrains.allows : AllowsUse (Refrains : Session σ → Session σ → Prop) where
  trans := .trans
  own connections restart := .of_same restart (by rw [connections])
  change _ := .of_same rfl (List.length_modify _ _ _)

theorem refrains_takeCommand (s : Session σ) : Refrains s (takeCommand s).2 := by
  unfold takeCommand
  split <;> exact .of_same rfl rfl

theorem refrains_takeEvent (s : Session σ) : Refrains s (takeEvent s).2 := by
  unfold takeEvent
  split
  · exact .refl s
  · refine Refrains.allows.on fun c => ?_
    split <;> exact .of_same rfl rfl

/-- Whatever a task finds, it refrains from connecting to a server in place of one that ended itself. -/
def Restrained (task : Task σ α) : Prop :=
  Program.Always Refrains (fun _ => True) (fun _ => True) task

namespace Restrained

/-- What leaves alone the client's own leaves alone what the client knows. -/
theorem of_sparing {task : Task σ α} (sparing : Sparing task) : Restrained task :=
  fun s => (sparing s).allow
    (fun _ _ spares => .of_same (by rw [spares.client]) (by rw [spares.connections])) fun _ _ => trivial

theorem stop : Restrained (Session.stop : Task σ Unit) := by
  have leaves : Restrained (do
      onDocuments (·.clearMarks)
      updateStatus (·.setRunning false) : Task σ Unit) :=
    .bind (Refrains.allows.onDocuments _) fun _ => Refrains.allows.updateStatus _
  refine .bind (.bind .get fun _ => .done trivial) fun running =>
    .bind (.modify (Refrains.allows.setServer none)) fun _ => ?_
  cases running with
  | none => exact leaves
  | some i => exact .bind Refrains.allows.shutdown fun _ => leaves

theorem tellClosed (synced : Bool) (uri : Url) : Restrained (do
    if synced then
      Session.withServer fun i => do
        let _ ← notifyClosed i uri : Task σ Unit) := by
  cases synced with
  | false => exact .done trivial
  | true => exact AllowsUse.withServer fun _ => .bind (Refrains.allows.notify _ _) fun _ => .done trivial

theorem didClose (uri : Url) : Restrained (Session.didClose uri : Task σ Unit) :=
  .bind .get fun _ => .bind (Refrains.allows.onDocuments _) fun _ => tellClosed _ uri

theorem watchedFilesChanged (changes : List Protocol.FileEvent) :
    Restrained (Session.watchedFilesChanged changes : Task σ Unit) :=
  .bind (.modify fun _ => .of_same rfl rfl) fun _ => AllowsUse.withServer fun _ =>
    .bind (Refrains.allows.notify _ _) fun _ => .done trivial

theorem handleNotification (method : String) (params : Json) :
    Restrained (Session.handleNotification method params : Task σ Unit) := by
  unfold Session.handleNotification
  split
  · split
    · exact Refrains.allows.updateStatus _
    · exact .done trivial
  · split
    · refine .bind (.modify fun s _ => ⟨rfl, rfl⟩) fun _ => .bind (.modify fun _ => .of_same rfl rfl) fun _ => ?_
      exact .start trivial
    · exact .done trivial
  · exact .done trivial

theorem connect {requestTimeout : Nat} {process : ServerProcess} {s : Session σ} (free : ¬ Resigned s) :
    (Session.connect requestTimeout process).Behaves Refrains (fun _ => True) (fun _ => True) s :=
  ⟨fun resigned => absurd resigned free, trivial, trivial, trivial⟩

section Client

variable [Host σ]

theorem didOpen (d : OpenDocument) : Restrained (Session.didOpen d : Task σ Unit) :=
  .bind (Refrains.allows.onDocuments _) fun _ => AllowsUse.withServer fun _ => Refrains.allows.syncDocument d

theorem handleCommand (c : ClientCommand) : Restrained (Session.handleCommand c : Task σ Unit) := by
  cases c with
  | configurationChanged =>
    exact .bind (.modify fun _ => .of_same rfl rfl) fun _ => .bind .get fun _ =>
      .bind (Refrains.allows.updateStatus _) fun _ => .bind Refrains.allows.syncDocuments fun _ =>
        AllowsUse.withServer fun _ => .bind (Refrains.allows.notify _ _) fun _ => .done trivial
  | status status => exact Refrains.allows.updateStatus (·.setStatus status)
  | probeFailed uri =>
    exact .bind .get fun _ => .bind (.modify fun _ => .of_same rfl rfl) fun _ => tellClosed _ uri

theorem restartAfterCrash {s : Session σ} (free : ¬ Resigned s) :
    Session.restartAfterCrash.Behaves Refrains (fun _ => True) (fun _ => True) s := by
  have starts : Session.start.Behaves Refrains (fun _ => True) (fun _ => True) s := by
    dsimp only [Session.start, Bind.bind, Program.bind, Program.get, Program.Behaves]
    split
    · exact trivial
    · split
      · exact trivial
      · exact Program.behaves_bind ((connect free).mono fun i _ s => Refrains.allows.useConnection s)
  show (if s.client.launch.isSome then _ else _ : Task σ Unit).Behaves _ _ _ s
  split
  · refine Program.behaves_bind (starts.mono fun result _ => ?_)
    cases result with
    | ok => exact fun _ => trivial
    | error e => exact fun _ => ⟨trivial, trivial⟩
  · exact trivial

omit [Host σ] in
/-- A policy that was told of the server's exit does not let it be started again. -/
theorem decided {next : Restart.Decision → Task σ Unit}
    (restarts : ∀ s, ¬ Resigned s → (next .restart).Behaves Refrains (fun _ => True) (fun _ => True) s)
    (others : ∀ d, d ≠ .restart → Restrained (next d)) :
    Restrained (.modifyGet (fun s : Session σ =>
      ((s.client.restart.onStopped s.uptime).1,
        { s with client := { s.client with restart := (s.client.restart.onStopped s.uptime).2 } })) >>=
      next) := by
  intro s
  have kept : Resigned { s with client := { s.client with
      restart := (s.client.restart.onStopped s.uptime).2 } } ↔ Resigned s := by
    rw [Resigned, Resigned, Restart.onStopped_exitCalled]
  refine ⟨fun resigned => ⟨kept.mpr resigned, rfl⟩, ?_⟩
  show (next (s.client.restart.onStopped s.uptime).1).Behaves _ _ _ _
  by_cases restart : (s.client.restart.onStopped s.uptime).1 = .restart
  · rw [restart]
    refine restarts _ fun resigned => ?_
    rw [Restart.onStopped_of_exitCalled (kept.mp resigned)] at restart
    cases restart
  · exact others _ restart _

theorem serverStopped : Restrained (Session.serverStopped : Task σ Unit) := by
  refine .bind (.bind .get fun _ => .done trivial) fun running => ?_
  extract_lets finish
  have finishes (r : PUnit) : Restrained (finish r) := by
    refine .bind (.modify (Refrains.allows.setServer none)) fun _ =>
      .bind (Refrains.allows.onDocuments _) fun _ => .bind (Refrains.allows.updateStatus _) fun _ =>
        decided (fun s free => restartAfterCrash free) fun d other => ?_
    cases d with
    | restart => exact absurd rfl other
    | exitCalled => exact .done trivial
    | giveUp => exact .start trivial
  cases running with
  | none => exact finishes ⟨⟩
  | some i => exact .bind (.modify fun _ => Refrains.allows.change ages_endProcess) finishes

theorem handleEvent (e : ServerEvent) : Restrained (Session.handleEvent e : Task σ Unit) := by
  cases e with
  | notification method params => exact handleNotification _ _
  | stopped reason => exact serverStopped

theorem handleQueued : Restrained (Session.handleQueued : Task σ Bool) := by
  refine .bind (.modifyGet refrains_takeCommand) fun command => ?_
  cases command with
  | some c => exact .bind (handleCommand c) fun _ => .done trivial
  | none =>
    refine .bind (.modifyGet refrains_takeEvent) fun event => ?_
    cases event with
    | some e => exact .bind (handleEvent e) fun _ => .done trivial
    | none => exact .done trivial

end Client

end Restrained

theorem Refrains.of_beside {s s' : Session σ} (beside : Beside s s') : Refrains s s' :=
  .of_same (by rw [beside.client]) beside.length

section Deeds

variable [Host σ] {l : Life σ} {deed : Deed σ} {deeds : List (Deed σ)}

/-- Only the user's command to restart makes the client forget that its server ended itself. -/
theorem recalls_operation {operation : Operation}
    (other : ∀ active, operation ≠ .execute .restart active) (s : Session σ) :
    operation.task.Behaves Recalls (fun _ => True) (fun _ => True) s := by
  have weaker {task : Task σ Unit} (restrained : Restrained task) :
      task.Behaves Recalls (fun _ => True) (fun _ => True) s :=
    (restrained s).allow (fun _ _ refrains => refrains.recalls) fun _ => id
  have joins (process : ServerProcess) (s : Session σ) : (do
      useConnection (← connect Connection.defaultRequestTimeout process)
        : Task σ (Except ClientError Unit)).Behaves Recalls (fun _ => True) (fun _ => True) s := by
    refine ⟨id, ?_⟩
    exact ⟨trivial, trivial, (Refrains.allows.useConnection _).allow (fun _ _ refrains => refrains.recalls)
      fun _ => id⟩
  cases operation with
  | opened d => exact weaker (.didOpen d)
  | closed uri => exact weaker (.didClose uri)
  | stop => exact weaker .stop
  | filesChanged changes => exact weaker (.watchedFilesChanged changes)
  | work => exact weaker (.bind Restrained.handleQueued fun _ => .done trivial)
  | attach => exact Program.behaves_bind ((joins .none s).mono fun _ _ _ => trivial)
  | start =>
    have starts : start.Behaves Recalls (fun _ => True) (fun _ => True) s := by
      dsimp only [Session.start, Bind.bind, Program.bind, Program.get, Program.Behaves]
      split
      · trivial
      · split
        · trivial
        · exact joins _ s
    exact Program.behaves_bind (starts.mono fun _ _ _ => trivial)
  | execute c active =>
    refine weaker (.bind ?_ fun _ => .done trivial)
    cases c with
    | migrateSettings =>
      exact .bind (Restrained.of_sparing (.migrateNow active)) fun _ => .done trivial
    | restart => exact absurd rfl (other active)
    | showOutput => exact .bind (.modify fun _ => .of_same rfl rfl) fun _ => .done trivial

/-- In the waits of a deed and after it, others leave alone what is the client's own. -/
structure Deed.Attended (deed : Deed σ) (l : Life σ) : Prop where
  turns : ∀ t ∈ (deed.operation.task.amid deed.during l.state).turns, Beside t.left t.found
  rests : Beside (deed.operation.task.amid deed.during l.state).final
    (deed.after (deed.operation.task.amid deed.during l.state).final)

/-- The next piece of work is to take note that the server ends itself. -/
def HearsExit (s : Session σ) : Prop :=
  s.commands = [] ∧ ∃ params, s.events.head? = some (.notification "eslint/exitCalled" params) ∧
    ∃ p, Protocol.ExitCalledParams.decode params = .ok p

theorem Deed.state_follow : (l.follow deed).state =
    deed.after (deed.operation.task.amid deed.during l.state).final := by
  rw [Life.follow, Program.chronicle_state]

theorem Deed.Attended.recalls (attended : deed.Attended l)
    (other : ∀ active, deed.operation ≠ .execute .restart active) :
    Recalls l.state (l.follow deed).state := by
  have ended : Recalls l.state (deed.operation.task.amid deed.during l.state).final :=
    (recalls_operation other l.state).amid .refl .trans
      fun t member => (Refrains.of_beside (attended.turns t member)).recalls
  rw [Deed.state_follow]
  exact (Refrains.of_beside attended.rests).recalls ∘ ended

theorem Deed.Attended.works (attended : deed.Attended l) (work : deed.operation = .work) :
    Refrains l.state (l.follow deed).state := by
  have restrained : Restrained (deed.operation.task : Task σ Unit) := by
    rw [work]
    exact .bind Restrained.handleQueued fun _ => .done trivial
  have ended := (restrained l.state).amid .refl .trans fun t member => .of_beside (attended.turns t member)
  rw [Deed.state_follow]
  exact ended.trans (.of_beside attended.rests)

theorem Deed.Attended.hears (attended : deed.Attended l) (work : deed.operation = .work)
    (hears : HearsExit l.state) : Resigned (l.follow deed).state := by
  obtain ⟨none, params, first, p, decoded⟩ := hears
  have noted : Resigned (deed.operation.task.amid deed.during l.state).final := by
    rw [work]
    have command : takeCommand l.state = (Option.none, l.state) := by
      rw [takeCommand, none]
    have event : ∃ s, takeEvent l.state = (some (.notification "eslint/exitCalled" params), s) := by
      unfold takeEvent
      unfold events at first
      cases running : l.state.client.server with
      | none => simp [running] at first
      | some i =>
        cases found : l.state.connection? i with
        | none => simp [running, found] at first
        | some c =>
          simp only [running, Option.bind_some, found] at first
          obtain ⟨rest, waiting⟩ := List.head?_eq_some_iff.mp first
          simp only [onConnection, show l.state.connections[i]? = some c from found, waiting]
          exact ⟨_, rfl⟩
    obtain ⟨s, event⟩ := event
    simp only [Operation.task, handleQueued, Program.amid_bind, Program.amid_modifyGet, command, event,
      handleEvent, handleNotification, decoded, Program.amid_modify, writeLog, Program.amid_pure]
    rfl
  rw [Deed.state_follow]
  exact (Refrains.of_beside attended.rests).recalls noted

theorem Resigned.after (resigned : Resigned l.state) {rest : List (Deed σ)}
    (attended : l.Throughout Deed.Attended (deeds ++ rest))
    (other : ∀ deed ∈ deeds, ∀ active, deed.operation ≠ .execute .restart active) :
    Resigned (l.after deeds).state ∧ (l.after deeds).Throughout Deed.Attended rest := by
  induction deeds generalizing l with
  | nil => exact ⟨resigned, attended⟩
  | cons deed deeds ih =>
    obtain ⟨first, attended⟩ := attended
    have recalled := first.recalls (other deed List.mem_cons_self) resigned
    exact ih recalled attended fun deed member => other deed (List.mem_cons_of_mem _ member)

open Restart (Notice Policy stops sinceReset restarts maxRestarts) in
/-- A policy decides by its whole history since the last reset, in which restarts are spaced out. Once
the client heard that its server ends itself, its policy lets no server be started again, and no work
makes it connect to another one, until the user has the server restarted. -/
theorem restarts_bounded :
    (∀ notices : List Notice, (stops notices).Pairwise (· ≤ ·) →
      (∀ before t d after, Policy.new.trace notices = before ++ .stopped t d :: after →
        d = if .exitCalled ∈ sinceReset before then .exitCalled
          else if maxRestarts ≤ (restarts (sinceReset before)).countP (t - · ≤ Restart.window) then .giveUp
          else .restart) ∧
      ∀ before after, Policy.new.trace notices = before ++ after →
        ∀ i j (first : i < (restarts (sinceReset before)).length)
          (last : j < (restarts (sinceReset before)).length), i + maxRestarts ≤ j →
            (restarts (sinceReset before))[i] + Restart.window < (restarts (sinceReset before))[j]) ∧
    ∀ (l : Life σ) (hearing : Deed σ) (deeds : List (Deed σ)), hearing.operation = .work →
      HearsExit l.state → l.Throughout Deed.Attended (hearing :: deeds) →
        (∀ deed ∈ deeds, ∀ active, deed.operation ≠ .execute .restart active) →
          ∀ before deed after, deeds = before ++ deed :: after →
            let l' := (l.follow hearing).after before
            (∀ t, (l'.state.client.restart.onStopped t).1 = .exitCalled) ∧
              (deed.operation = .work →
                (l'.follow deed).state.connections.length = l'.state.connections.length) := by
  constructor
  · intro notices ordered
    constructor
    · intro before t d after split
      exact Restart.decision_eq ordered split
    · intro before after split i j first last apart
      exact Restart.restarts_spaced ordered split i j first last apart
  · intro l hearing deeds work hears attended other before deed after split l'
    obtain ⟨first, attended⟩ := attended
    subst split
    obtain ⟨resigned, attended⟩ := Resigned.after (first.hears work hears) attended
      fun deed member => other deed (List.mem_append_left _ member)
    constructor
    · intro t
      rw [Restart.onStopped_of_exitCalled resigned t]
    · intro work
      exact (attended.1.works work resigned).2

end Deeds

theorem Deed.Polite.attended {σ : Type} [Host σ] {l : Life σ} {deed : Deed σ} (polite : deed.Polite) :
    deed.Attended l where
  turns t member := by
    obtain ⟨n, found⟩ := Program.found_of_mem_turns member
    exact found ▸ polite.during n t.left
  rests := polite.after _

/-- A client whose server stops, after the given notices. -/
def exiting (notices : List ServerEvent) : Life MemoryStore :=
  let l : Life MemoryStore :=
    ⟨.new emptyStore .inMemory (some ⟨"node", [], "server.js", none⟩) (fun _ => .ok ()) 0, []⟩
  ⟨changeConnection 0 (fun c => (notices ++ [ServerEvent.stopped .exited]).foldl .addEvent c)
    (l.follow (answering 0)).state, []⟩

def exitNotice : ServerEvent :=
  .notification "eslint/exitCalled" (.arr [.ofInt 1, .str "no config"])

open Restart (Notice Policy Decision stops) in
/-- The fifth stop comes when the first one is still inside the window. Of two clients whose server
stops, one connects to another server, and one that heard of the exit before does not. -/
theorem restarts_bounded_exited :
    let notices : List Notice :=
      [.stopped 0, .stopped 10, .stopped 20, .stopped 180000, .stopped 180000, .stopped 180011]
    let l := exiting [exitNotice]
    (stops notices).Pairwise (· ≤ ·) ∧
      (∃ d, Policy.new.trace notices = (Policy.new.trace notices).take 4 ++ .stopped 180000 d ::
        (Policy.new.trace notices).drop 5 ∧ d = .giveUp) ∧
      HearsExit l.state ∧ l.Throughout Deed.Attended [alone .work, alone .work] ∧
      ((l.follow (alone .work)).state.client.restart.onStopped 7).1 = .exitCalled ∧
      ((l.follow (alone .work)).follow (alone .work)).state.connections.length = 1 ∧
      ((exiting []).after [alone .work]).state.connections.length = 2 := by
  intro notices l
  have ordered : (stops notices).Pairwise (· ≤ ·) := by decide
  obtain ⟨d, fifth⟩ : ∃ d, Policy.new.trace notices = (Policy.new.trace notices).take 4 ++
      .stopped 180000 d :: (Policy.new.trace notices).drop 5 :=
    ⟨.giveUp, by decide +kernel⟩
  have decided := ((@restarts_bounded MemoryStore _).1 notices ordered).1 _ _ _ _ fifth
  have refused : d = .giveUp := by
    rw [decided]
    decide +kernel
  have heard : HearsExit l.state := by
    refine ⟨by decide +kernel, .arr [.ofInt 1, .str "no config"], by decide +kernel, ⟨1, "no config"⟩, ?_⟩
    decide +kernel
  have attended : l.Throughout Deed.Attended [alone .work, alone .work] :=
    ⟨(polite_alone _).attended, (polite_alone _).attended, trivial⟩
  have never : ∀ deed ∈ [alone .work], ∀ active, deed.operation ≠ .execute .restart active := by
    simp [alone]
  have stays := restarts_bounded.2 l (alone .work) [alone .work] rfl heard attended never [] (alone .work) [] rfl
  simp only [Life.after, List.foldl_nil] at stays
  have before : (l.follow (alone .work)).state.connections.length = 1 := by decide +kernel
  have after := (stays.2 rfl).trans before
  exact ⟨ordered, ⟨d, fifth, refused⟩, heard, attended, stays.1 7, after, by decide +kernel⟩

end LinterClient.Session
