import LinterClient.Proofs.Session.Syncing

/-!
What each operation of a client does, in steps.

An operation starts without marks unless a server runs, and ends so. Whether the marks agree with the
gate at its end depends on what it looked at.
-/

namespace LinterClient.Session

open Documents (Filed)

variable {σ α : Type}

structure Sound (urls : Set Url) (l : Life σ) : Prop extends Regular urls l where
  vacant : l.state.client.server = none → l.state.documents.synced = []

section Tacit

variable {urls : Set Url} {known : σ → Prop} {l l' : Life σ}

theorem Brings.told {documents : Documents} {entries : List Entry}
    (brings : Brings known documents entries l l') (i : Nat) (uri : String) :
    told i uri l'.journal = told i uri l.journal ++ told i uri entries := by
  rw [← told_filter, brings.tells, told_append, told_filter]

theorem Brings.vacant (quiet : Tacit known l l')
    (vacant : l.state.client.server = none → l.state.documents.synced = []) :
    l'.state.client.server = none → l'.state.documents.synced = [] := by
  rw [quiet.server, quiet.documents]
  exact vacant

theorem Brings.step (quiet : Tacit known l l') : Steps urls l l' :=
  .single (.quiet quiet.weaken)

theorem Sound.quiet (apart : Set.InjOn Url.text urls) (sound : Sound urls l) (quiet : Tacit known l l') :
    Sound urls l' :=
  ⟨sound.toRegular.steps apart quiet.step, quiet.vacant sound.vacant⟩

end Tacit

variable [Host σ]

/-- Whenever a server runs, it knows the documents that it should know. -/
def Follows (gate : σ) (l : Life σ) : Prop :=
  l.state.client.server ≠ none → Agrees gate l

/-- What an operation leads to. The marks agree with the gate afterwards if something was so before. -/
structure Result (urls : Set Url) (known : σ → Prop) (gate : σ) (before : Prop) (l l' : Life σ) :
    Prop where
  steps : Steps urls l l'
  vacant : l'.state.client.server = none → l'.state.documents.synced = []
  follows : before → (∀ store, known store → Sees gate store) → known l.state.store →
    Refused l' ∨ Follows gate l'

/-- Whatever others do, a task leads to such a result. -/
def Does (urls : Set Url) (known : σ → Prop) (gate : σ) (before : Prop) (task : Task σ α)
    (l : Life σ) : Prop :=
  task.Ensures watch (amidst known) (fun _ l' => Result urls known gate before l l') l

section Results

variable {urls : Set Url} {known : σ → Prop} {gate : σ} {before before' : Prop} {l l' l'' : Life σ}
variable {i : Nat} {task : Task σ α}

theorem Brings.follows (quiet : Tacit known l l') (follows : Follows gate l) : Follows gate l' := by
  rw [Follows, Agrees, quiet.server, quiet.documents, quiet.failures]
  exact follows

theorem Result.of_quiet {known' : σ → Prop} (sound : Sound urls l) (quiet : Tacit known' l l') :
    Result urls known gate (Follows gate l) l l' :=
  ⟨quiet.step, quiet.vacant sound.vacant, fun follows _ _ => .inr (quiet.follows follows)⟩

theorem Result.quiet {known' : σ → Prop} (result : Result urls known gate before l l')
    (quiet : Tacit known' l' l'') :
    Result urls known gate before l l'' where
  steps := result.steps.trans quiet.step
  vacant := quiet.vacant result.vacant
  follows holds sees knows :=
    (result.follows holds sees knows).imp quiet.toContinues.refused quiet.follows

theorem Result.after (steps : Steps urls l l') (store : known l.state.store → known l'.state.store)
    (holds : before → before') (result : Result urls known gate before' l' l'') :
    Result urls known gate before l l'' where
  steps := steps.trans result.steps
  vacant := result.vacant
  follows given sees knows := result.follows (holds given) sees (store knows)

theorem Does.after (steps : Steps urls l l') (store : known l.state.store → known l'.state.store)
    (holds : before → before') (does : Does urls known gate before' task l') :
    task.Ensures watch (amidst known) (fun _ l'' => Result urls known gate before l l'') l' :=
  Program.Ensures.mono does fun _ _ result => result.after steps store holds

theorem Calm.does (calm : Calm known task) (sound : Sound urls l) :
    Does urls known gate (Follows gate l) task l :=
  (calm l).mono fun _ _ => .of_quiet sound

end Results

section Connections

variable {urls : Set Url} {known : σ → Prop} {gate : σ} {l : Life σ} {i : Nat}

theorem told_eq_nil {journal : List Entry} (other : ∀ e ∈ journal, e.connection ≠ i) (uri : String) :
    told i uri journal = [] := by
  refine List.filterMap_eq_nil_iff.mpr fun e member => ?_
  cases e with
  | refused => rfl
  | handed j m marked =>
    have different : j ≠ i := other _ member
    cases telling : Session.told? m <;> simp [Entry.told?, telling, different]

/-- A session with one more connection. -/
def joined (c : Connection) (s : Session σ) : Session σ :=
  { s with connections := s.connections ++ [c] }

omit [Host σ] in
theorem outbox_joined {c : Connection} (empty : c.outbox = []) (s : Session σ) (j : Nat) :
    outbox (joined c s) j = outbox s j := by
  rw [outbox, outbox, connection?, connection?, joined, List.getElem?_append]
  split
  · rfl
  · rename_i new
    rw [List.getElem?_eq_none (not_lt.mp new)]
    cases found : [c][j - s.connections.length]? with
    | none => rfl
    | some c' =>
      rw [List.mem_singleton.mp (List.mem_of_getElem? found)]
      exact empty

omit [Host σ] in
theorem ensures_connect {requestTimeout : Nat} {process : ServerProcess} {post : Nat → Life σ → Prop}
    (connected : ∀ l', Tacit known l l' → l'.journal = l.journal →
      l.state.connections.length < l'.state.connections.length →
        post l.state.connections.length l') :
    (connect requestTimeout process).Ensures watch (amidst known) post l := by
  rw [connect, Program.ensures_bind, Program.ensures_modifyGet]
  generalize isNew : Connection.new requestTimeout process = c
  have silent : watch.changed l.state (joined c l.state) = [] :=
    changed_of_outbox (outbox_joined (by rw [← isNew]; rfl) l.state)
  have same : l.change watch (joined c l.state) = ⟨joined c l.state, l.journal⟩ := by
    rw [Chronicle.change, silent, List.append_nil]
  have longer : l.state.connections.length < (joined c l.state).connections.length := by
    simp [joined]
  show post _ (l.change watch (joined c l.state))
  rw [same]
  refine connected _ ⟨⟨Nat.le_of_lt longer, fun i old => ?_, [], (List.append_nil _).symm, by simp,
    .nil⟩, rfl, rfl, rfl, id, (List.append_nil _).symm⟩ rfl longer
  rw [isConnected, isConnected, connection?, connection?, joined, List.getElem?_append_left old]
  exact id

end Connections

section Links

variable {urls : Set Url} {known : σ → Prop} {gate : σ} {l l' : Life σ}

omit [Host σ] in
theorem change_setServer (server : Option Nat) :
    l.change watch (setServer server l.state) = ⟨setServer server l.state, l.journal⟩ :=
  change_of_connections rfl

/-- Without a server there is nothing to follow. -/
theorem Follows.of_none (none : l.state.client.server = none) : Follows gate l :=
  fun running => absurd none running

theorem does_useConnection (apart : Set.InjOn Url.text urls) (sound : Sound urls l) {i : Nat}
    (none : l.state.client.server = none) (new : ∀ uri, told i uri l.journal = [])
    (exists_ : i < l.state.connections.length) :
    Does urls known gate True (useConnection i) l := by
  rw [Does, useConnection, Program.ensures_bind, Program.ensures_get, Program.ensures_bind]
  refine (Calm.handshake _ _ l).mono fun result l₁ quiet => ?_
  have sound₁ := sound.quiet apart quiet
  have none₁ : l₁.state.client.server = .none := quiet.server.trans none
  cases result with
  | error e =>
    have calm : Calm known (do
        shutdown i
        .modify (changeConnection i (·.ignoreEvents))
        return .error (.handshake e) : Task σ (Except ClientError Unit)) :=
      .bind .shutdown fun _ => .bind .ignoreEvents fun _ => .pure _
    refine (calm l₁).mono fun _ l₂ more => ?_
    refine ⟨(quiet.trans more).step, (sound₁.quiet apart more).vacant, fun _ _ _ => .inr (.of_none ?_)⟩
    exact more.server.trans none₁
  | ok capabilities =>
    -- There are no events to drop, since the client had no server before.
    have undropped : dropEvents l₁.state = l₁.state := by rw [dropEvents, none₁]
    dsimp only
    rw [Program.ensures_bind, Program.ensures_modify, undropped, change_setServer, Program.ensures_bind]
    have new₁ (uri : String) : told i uri l₁.journal = [] := by
      rw [quiet.told, new]
      rfl
    have used : Step urls l₁ ⟨setServer (some i) l₁.state, l₁.journal⟩ :=
      .used none₁ (sound₁.vacant none₁) new₁ (Nat.lt_of_lt_of_le exists_ quiet.length)
    refine (Calm.updateStatus _ _).mono fun _ l₃ shown => ?_
    have regular₃ := (sound₁.toRegular.step apart used).steps apart shown.step
    rw [Program.ensures_bind]
    refine (ensures_syncDocuments gate apart regular₃).mono ?_
    rintro _ l₄ ⟨steps, marks, -, agrees⟩
    have runs : l₄.state.client.server = some i := marks.server.trans shown.server
    refine ⟨(quiet.step.tail used).trans (shown.step.trans steps), ?_, fun _ sees knows => ?_⟩
    · rw [runs]
      exact nofun
    · have running : l₃.state.client.server ≠ .none := by
        rw [shown.server]
        exact nofun
      exact (agrees sees (shown.store (quiet.store knows)) running).imp_right fun agrees _ => agrees

/-- A server is used over a connection that is new. -/
theorem does_connect (apart : Set.InjOn Url.text urls) (sound : Sound urls l)
    (none : l.state.client.server = none) (process : ServerProcess) :
    Does urls known gate True (connect Connection.defaultRequestTimeout process >>= useConnection) l := by
  rw [Does, Program.ensures_bind]
  refine ensures_connect fun l₁ quiet journal longer => ?_
  have new (uri : String) : told l.state.connections.length uri l₁.journal = [] := by
    -- Its number was not in use, so no note is about it.
    rw [journal]
    exact told_eq_nil (fun e member => (sound.fresh e member).ne) uri
  exact (does_useConnection apart (sound.quiet apart quiet) (quiet.server.trans none) new longer).after
    quiet.step quiet.store id

theorem does_attach (apart : Set.InjOn Url.text urls) (sound : Sound urls l)
    (none : l.state.client.server = none) : Does urls known gate True attach l :=
  does_connect apart sound none _

theorem does_start (apart : Set.InjOn Url.text urls) (sound : Sound urls l)
    (none : l.state.client.server = none) : Does urls known gate True start l := by
  have stays {result : Except ClientError Unit} :
      Does urls known gate True (.done result : Task σ (Except ClientError Unit)) l :=
    ((Calm.pure result).does sound).after .refl id fun _ => .of_none none
  rw [Does, start, Program.ensures_bind, Program.ensures_get]
  cases l.state.client.launch with
  | none => exact stays
  | some launch =>
    dsimp only
    cases l.state.canLaunch launch with
    | error e => exact stays
    | ok => exact does_connect apart sound none _

/-- No server is left, and no mark. -/
structure Ended (urls : Set Url) (known : σ → Prop) (l l' : Life σ) : Prop where
  steps : Steps urls l l'
  server : l'.state.client.server = none
  synced : l'.state.documents.synced = []
  store : known l.state.store → known l'.state.store

omit [Host σ] in
theorem Ended.quiet {l'' : Life σ} (ended : Ended urls known l l') (quiet : Tacit known l' l'') :
    Ended urls known l l'' where
  steps := ended.steps.trans quiet.step
  server := quiet.server.trans ended.server
  synced := by rw [quiet.documents, ended.synced]
  store := quiet.store ∘ ended.store

theorem Ended.result (ended : Ended urls known l l') : Result urls known gate True l l' :=
  ⟨ended.steps, fun _ => ended.synced, fun _ _ _ => .inr (.of_none ended.server)⟩

omit [Host σ] in
theorem Ended.sound (apart : Set.InjOn Url.text urls) (sound : Sound urls l)
    (ended : Ended urls known l l') : Sound urls l' :=
  ⟨sound.toRegular.steps apart ended.steps, fun _ => ended.synced⟩

variable (urls) in
omit [Host σ] in
/-- The client has no server from here on, and nobody takes the events of the one it had. -/
theorem ensures_leave {post : Unit → Life σ → Prop}
    (left : ∀ l', Steps urls l l' → l'.state.client.server = none →
      (known l.state.store → known l'.state.store) → post () l') :
    (.modify fun s => setServer none (dropEvents s) : Task σ Unit).Ensures watch (amidst known) post l := by
  rw [Program.ensures_modify]
  have quiet : Tacit known l (l.change watch (dropEvents l.state)) := .of_idle (idle_dropEvents _)
  have silent : watch.changed l.state (setServer none (dropEvents l.state)) =
      watch.changed l.state (dropEvents l.state) := rfl
  rw [Chronicle.change, silent]
  exact left _ (quiet.step.tail .left) rfl quiet.store

omit [Host σ] in
theorem Ended.of_clearMarks {l₁ : Life σ} (steps : Steps urls l l₁)
    (none : l₁.state.client.server = none) (store : known l.state.store → known l₁.state.store) :
    Ended urls known l (refile l₁.state.documents.clearMarks l₁) :=
  ⟨steps.tail (.cleared none), none, rfl, store⟩

omit [Host σ] in
theorem ensures_stop : stop.Ensures watch (amidst known) (fun _ l' => Ended urls known l l') l := by
  have clears {l₁ : Life σ} (ended : Ended urls known l (refile l₁.state.documents.clearMarks l₁)) :
      (do
        onDocuments (·.clearMarks)
        updateStatus (·.setRunning false) : Task σ Unit).Ensures watch (amidst known)
          (fun _ l' => Ended urls known l l') l₁ := by
    rw [Program.ensures_bind, ensures_onDocuments]
    exact (Calm.updateStatus _ _).mono fun _ _ quiet => ended.quiet quiet
  rw [stop, Program.ensures_bind, server, Program.ensures_bind, Program.ensures_get,
    Program.ensures_pure, Program.ensures_bind]
  refine ensures_leave urls fun l₁ steps none store => ?_
  cases l.state.client.server with
  | none => exact clears (.of_clearMarks steps none store)
  | some i =>
    dsimp only
    rw [Program.ensures_bind]
    refine (Calm.shutdown l₁).mono fun _ l₂ quiet => ?_
    exact clears (.of_clearMarks (steps.trans quiet.step) (quiet.server.trans none) (quiet.store ∘ store))

theorem does_restartAfterCrash (apart : Set.InjOn Url.text urls) (sound : Sound urls l)
    (none : l.state.client.server = none) : Does urls known gate True restartAfterCrash l := by
  rw [Does, restartAfterCrash, Program.ensures_bind, Program.ensures_get]
  split
  · rw [Program.ensures_bind]
    have starts : Does urls known gate True start l := does_start apart sound none
    refine Program.Ensures.mono starts fun result l₁ started => ?_
    cases result with
    | ok => exact started
    | error e => exact (Calm.announceLater _ _ _ _).mono fun _ _ quiet => started.quiet quiet
  · exact ((Calm.pure ()).does sound).after .refl id fun _ => .of_none none

theorem does_serverStopped (apart : Set.InjOn Url.text urls) (sound : Sound urls l) :
    Does urls known gate True serverStopped l := by
  rw [Does, serverStopped, Program.ensures_bind, server, Program.ensures_bind, Program.ensures_get,
    Program.ensures_pure]
  extract_lets leaves
  have goes {l₁ : Life σ} (quiet : Tacit known l l₁) : (leaves ⟨⟩).Ensures watch (amidst known)
      (fun _ l' => Result urls known gate True l l') l₁ := by
    unfold leaves
    rw [Program.ensures_bind]
    refine ensures_leave urls fun l₂ steps none store => ?_
    rw [Program.ensures_bind, ensures_onDocuments, Program.ensures_bind]
    have ended : Ended urls known l (refile l₂.state.documents.clearMarks l₂) :=
      .of_clearMarks (quiet.step.trans steps) none (store ∘ quiet.store)
    refine (Calm.updateStatus _ _).mono fun _ l₃ shown => ?_
    rw [Program.ensures_bind]
    refine (Calm.modifyGet (fun s => ⟨.of_connections rfl, rfl, rfl, rfl, rfl⟩) l₃).mono
      fun decision l₄ decided => ?_
    have ended₄ := (ended.quiet shown).quiet decided
    cases decision with
    | restart =>
      exact (does_restartAfterCrash apart (ended₄.sound apart sound) ended₄.server).after
        ended₄.steps ended₄.store id
    | exitCalled => exact ended₄.result
    | giveUp =>
      exact (Calm.announceLater _ _ _ _).mono fun _ _ told => (ended₄.quiet told).result
  cases l.state.client.server with
  | none => exact goes (.refl l)
  | some i =>
    dsimp only
    rw [Program.ensures_bind]
    exact (Calm.endProcess l).mono fun _ _ quiet => goes quiet

end Links

end LinterClient.Session
