import LinterClient.Proofs.Session.Sparing

/-!
What the tasks of a session may do.

Some relations between states allow all that the jobs beside the client's own do, some also what the client
does to use a connection. To know that of a relation takes a few kinds of changes only.
-/

namespace LinterClient

open Program (Always)

/-- A job that is not the client's own. -/
def Job.IsAside (job : Job) : Prop :=
  ∀ deadline, job ≠ .serve deadline

namespace Connection

/-- A request that does not wait in a connection does not wait in it later. -/
structure Ages (c c' : Connection) : Prop where
  nextId : c.nextId ≤ c'.nextId
  fewer : ∀ n < c.nextId, n ∈ c'.pending → n ∈ c.pending

/-- Nothing is about to be written that was not before, and no request begins. -/
structure Heeds (c c' : Connection) : Prop where
  writing : c'.writing = c.writing
  outbox : c'.outbox = c.outbox
  nextId : c'.nextId = c.nextId
  fewer : ∀ n ∈ c'.pending, n ∈ c.pending

variable {c c' : Connection}

theorem Heeds.ages (heeds : c.Heeds c') : c.Ages c' :=
  ⟨Nat.le_of_eq heeds.nextId.symm, fun n _ => heeds.fewer n⟩

theorem heeds_deliver (c : Connection) (n : Nat) (body : Json.Members) : c.Heeds (c.deliver n body) := by
  unfold deliver
  split
  · exact ⟨rfl, rfl, rfl, fun _ waiting => (List.mem_filter.mp waiting).1⟩
  · exact ⟨rfl, rfl, rfl, fun _ => id⟩

theorem heeds_addEvent (c : Connection) (e : ServerEvent) : c.Heeds (c.addEvent e) := by
  unfold addEvent
  split <;> exact ⟨rfl, rfl, rfl, fun _ => id⟩

theorem Ages.of_same (nextId : c'.nextId = c.nextId) (pending : c'.pending = c.pending) : c.Ages c' :=
  ⟨Nat.le_of_eq nextId.symm, fun _ _ waiting => pending ▸ waiting⟩

theorem ages_enqueue (c : Connection) (o : Outgoing) : c.Ages (c.enqueue o).2 := by
  unfold enqueue
  split <;> exact .of_same rfl rfl

theorem ages_writeNext (c : Connection) : c.Ages c.writeNext.2 := by
  unfold writeNext
  split
  · exact .of_same rfl rfl
  · exact .of_same rfl rfl
  · split <;> exact .of_same rfl rfl

theorem ages_newRequest (c : Connection) : c.Ages c.newRequest.2 where
  nextId := Nat.le_succ _
  fewer n old waiting := by
    rcases List.mem_append.mp waiting with before | new
    · exact before
    · rw [List.mem_singleton.mp new] at old
      exact absurd old (Nat.lt_irrefl _)

theorem ages_forget (c : Connection) (id : Nat) : c.Ages (c.forget id) :=
  ⟨Nat.le_refl _, fun _ _ waiting => (List.mem_filter.mp waiting).1⟩

theorem ages_takeReply (c : Connection) (id : Nat) : c.Ages (c.takeReply id).2 :=
  ⟨Nat.le_refl _, fun _ _ waiting => (List.mem_filter.mp waiting).1⟩

end Connection

namespace Session

variable {σ α : Type} {may : Session σ → Session σ → Prop} {starts : Job → Prop} {i : Nat}

/-- A relation that allows what the jobs beside the client's own do. -/
structure AllowsJobs (may : Session σ → Session σ → Prop) : Prop where
  spares : ∀ {s s'}, Spares s s' → may s s'
  writes : ∀ i s, may s (onConnection i false (·.writeNext) s).2
  responds : ∀ i id result s,
    may s (onConnection i false (·.enqueue (.frame (Protocol.response id result))) s).2
  heeds : ∀ {i f s}, (∀ c : Connection, c.Heeds (f c)) → may s (changeConnection i f s)

namespace AllowsJobs

variable (allows : AllowsJobs may)

include allows

theorem sparing {task : Task σ α} (sparing : Sparing task) :
    Always may Job.IsAside (fun _ => True) task := by
  intro s
  refine (sparing s).allow (fun _ _ => allows.spares) ?_
  rintro _ ⟨m, action, rfl⟩ deadline ⟨⟩

theorem respond (id : Json) (result : Except Protocol.Error Json) : Always may Job.IsAside (fun _ => True)
    (send i (.frame (Protocol.response id result)) : Task σ Bool) :=
  .bind (.await _) fun _ => .modifyGet (allows.responds i id result)

theorem writer : Always may Job.IsAside (fun next => ∀ job ∈ next, job.IsAside)
    (Session.writer i : Task σ (Option Job)) := by
  refine .bind (.await _) fun _ => .bind (.modifyGet (allows.writes i)) fun goesOn => .done ?_
  split
  · rintro _ ⟨⟩ deadline ⟨⟩
  · rintro _ ⟨⟩

theorem addEvent (e : ServerEvent) :
    Always may Job.IsAside (fun _ => True) (Session.addEvent i e : Task σ Unit) := by
  refine .bind (.await _) fun _ => .bind (.bind .get fun _ => .done trivial) fun ended => ?_
  split
  · exact .modify fun _ => allows.heeds (·.heeds_addEvent e)
  · exact .done trivial

theorem dispatch (message : Json) :
    Always may Job.IsAside (fun _ => True) (Session.dispatch i message : Task σ Unit) := by
  unfold Session.dispatch
  split
  · exact .done trivial
  · exact .modify fun _ => allows.heeds (·.heeds_deliver _ _)
  · split
    · exact .bind (allows.respond _ _) fun _ => .done trivial
    · exact .start nofun
  · split
    · exact allows.sparing (.writeLog _ _)
    · exact allows.addEvent _

theorem stopReading (reason : StopReason) :
    Always may Job.IsAside (fun _ => True) (Session.stopReading i reason : Task σ Unit) :=
  .bind (.modify fun _ => allows.heeds fun _ => ⟨rfl, rfl, rfl, nofun⟩) fun _ =>
    .bind (allows.addEvent _) fun _ => .modify fun _ => allows.heeds fun _ => ⟨rfl, rfl, rfl, fun _ => id⟩

theorem reader : Always may Job.IsAside (fun next => ∀ job ∈ next, job.IsAside)
    (Session.reader i : Task σ (Option Job)) := by
  have goesOn : ∀ job ∈ some (Job.reader i), job.IsAside := by
    rintro _ ⟨⟩ deadline ⟨⟩
  refine .bind (.await _) fun _ => .bind .get fun s => ?_
  split
  · exact .done nofun
  split
  · exact .done nofun
  split
  · exact .bind (.modify fun _ => allows.heeds fun _ => ⟨rfl, rfl, rfl, fun _ => id⟩) fun _ =>
      .bind (allows.dispatch _) fun _ => .done goesOn
  · exact .done goesOn
  · exact .bind (allows.stopReading _) fun _ => .done nofun
  · exact .bind (allows.stopReading _) fun _ => .done nofun

/-- Whatever a job asks for, it does what is allowed, and goes on with such jobs only. -/
theorem runJob [Host σ] {job : Job} (aside : job.IsAside) :
    Always may Job.IsAside (fun next => ∀ job ∈ next, job.IsAside)
      (Session.runJob Session.handle job : Task σ (Option Job)) := by
  cases job with
  | writer i => exact allows.writer
  | reader i => exact allows.reader
  | answer i id method params =>
    exact .bind (.bind (allows.sparing (.handle _ _)) fun _ => .bind (allows.respond _ _) fun _ =>
      .done trivial) fun _ => .done nofun
  | announce m action => exact .bind (allows.sparing (.announce _ _)) fun _ => .done nofun
  | serve deadline => exact absurd rfl (aside deadline)

end AllowsJobs

theorem ages_endProcess (c : Connection) : c.Ages (endProcess c) := by
  unfold endProcess
  split <;> exact .of_same rfl rfl

/-- A relation that allows what the client does to use a connection, too. -/
structure AllowsUse (may : Session σ → Session σ → Prop) : Prop where
  trans : ∀ {s s' s''}, may s s' → may s' s'' → may s s''
  own : ∀ {s s'}, s'.connections = s.connections → s'.client.restart = s.client.restart → may s s'
  change : ∀ {i f s}, (∀ c : Connection, c.Ages (f c)) → may s (changeConnection i f s)

namespace AllowsUse

variable (allows : AllowsUse may)

include allows

theorem on {default : α} {f : Connection → α × Connection} {s : Session σ}
    (ages : ∀ c : Connection, c.Ages (f c).2) : may s (onConnection i default f s).2 := by
  rw [onConnection_snd]
  exact allows.change ages

theorem jobs : AllowsJobs may where
  spares spares := allows.own spares.connections (by rw [spares.client])
  writes _ _ := allows.on (·.ages_writeNext)
  responds _ _ _ _ := allows.on (·.ages_enqueue _)
  heeds heeds := allows.change fun c => (heeds c).ages

theorem dropEvents (s : Session σ) : may s (dropEvents s) := by
  unfold Session.dropEvents
  split
  · exact allows.change fun _ => .of_same rfl rfl
  · exact allows.own rfl rfl

theorem setServer (i : Option Nat) (s : Session σ) : may s (setServer i (Session.dropEvents s)) :=
  allows.trans (allows.dropEvents s) (allows.own rfl rfl)

theorem send (o : Outgoing) : Always may starts (fun _ => True) (Session.send i o : Task σ Bool) :=
  .bind (.await _) fun _ => .modifyGet fun _ => allows.on (·.ages_enqueue o)

theorem notify (method : String) (params : Option Json) : Always may starts (fun _ => True)
    (Session.notify i method params : Task σ (Except RequestError Unit)) := by
  refine .bind (allows.send _) fun sent => ?_
  split <;> exact .done trivial

theorem requestWithin (method : String) (params : Option Json) (patience : Nat) :
    Always may starts (fun _ => True)
      (Session.requestWithin i method params patience : Task σ (Except RequestError Json)) := by
  refine .bind (.modifyGet fun _ => allows.on (·.ages_newRequest)) fun id =>
    .bind (allows.send _) fun sent => ?_
  split
  · exact .bind (.modify fun _ => allows.change (·.ages_forget id)) fun _ => .done trivial
  · refine .bind .get fun _ => .bind (.await _) fun _ =>
      .bind (.modifyGet fun _ => allows.on (·.ages_takeReply id)) fun reply => ?_
    split
    · exact .done trivial
    · exact .done trivial
    · split <;> exact .done trivial

theorem handshake (root : Option Url) (folders : List (String × Url)) : Always may starts (fun _ => True)
    (Session.handshake i root folders : Task σ (Except HandshakeError Json)) := by
  refine .bind .get fun _ => .bind (.bind .get fun _ => allows.requestWithin _ _ _) fun reply => ?_
  split
  · exact .done trivial
  · refine .bind (allows.notify _ _) fun sent => ?_
    split <;> exact .done trivial

theorem shutdown : Always may starts (fun _ => True) (Session.shutdown i : Task σ Unit) := by
  refine .bind .get fun s => ?_
  extract_lets finish
  have finishes (r : PUnit) : Always may starts (fun _ => True) (finish r) := by
    refine .bind (allows.send _) fun _ => .bind (.await _) fun _ => .bind .get fun s => ?_
    split
    · exact .modify fun _ => allows.change fun _ => .of_same rfl rfl
    · exact .bind (.await _) fun _ => .modify fun _ => allows.change ages_endProcess
  split
  · refine .bind (allows.requestWithin _ _ _) fun reply => ?_
    cases reply with
    | ok => exact .bind (allows.notify _ _) fun _ => finishes ⟨⟩
    | error => exact finishes ⟨⟩
  · exact finishes ⟨⟩

theorem updateStatus (f : StatusItem → StatusItem) :
    Always may starts (fun _ => True) (Session.updateStatus f : Task σ Unit) :=
  .bind (.modify fun _ => allows.own rfl rfl) fun _ => .bind .get fun _ =>
    .modify fun _ => allows.own rfl rfl

theorem onDocuments (f : Documents → Documents) :
    Always may starts (fun _ => True) (Session.onDocuments f : Task σ Unit) :=
  .modify fun _ => allows.own rfl rfl

omit allows in
theorem withServer {f : Nat → Task σ Unit} (each : ∀ i, Always may starts (fun _ => True) (f i)) :
    Always may starts (fun _ => True) (Session.withServer f : Task σ Unit) := by
  refine .bind (.bind .get fun _ => .done trivial) fun running => ?_
  split
  · exact each _
  · exact .done trivial

section Host

variable [Host σ]

theorem syncDocument (d : OpenDocument) :
    Always may starts (fun _ => True) (Session.syncDocument i d : Task σ Unit) := by
  refine .bind .get fun s => ?_
  dsimp only
  split
  · refine .bind (allows.onDocuments _) fun _ => .bind (allows.notify _ _) fun sent => ?_
    split
    · exact .done trivial
    · exact allows.onDocuments _
  · split
    · exact .bind (allows.onDocuments _) fun _ => .bind (allows.notify _ _) fun _ => .done trivial
    · exact .done trivial

theorem syncDocuments : Always may starts (fun _ => True) (Session.syncDocuments : Task σ Unit) := by
  have each (i : Nat) (ds : List OpenDocument) :
      Always may starts (fun _ => True) (syncEach i ds : Task σ Unit) := by
    induction ds with
    | nil => exact .done trivial
    | cons d rest ih => exact .bind (allows.syncDocument d) fun _ => ih
  exact withServer fun i => .bind .get fun _ => each i _

theorem useConnection :
    Always may starts (fun _ => True) (Session.useConnection i : Task σ (Except ClientError Unit)) := by
  refine .bind .get fun s => .bind (allows.handshake _ _) fun greeted => ?_
  split
  · exact .bind allows.shutdown fun _ =>
      .bind (.modify fun _ => allows.change fun _ => .of_same rfl rfl) fun _ => .done trivial
  · exact .bind (.modify (allows.setServer _)) fun _ => .bind (allows.updateStatus _) fun _ =>
      .bind allows.syncDocuments fun _ => .done trivial

end Host

end AllowsUse

end Session

end LinterClient
