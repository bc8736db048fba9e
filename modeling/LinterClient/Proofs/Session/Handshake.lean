import LinterClient.Proofs.Session.Events
import LinterClient.Proofs.Session.Requesting
import LinterClient.Proofs.Session.Settling
import LinterClient.Proofs.Task.Pool

/-!
The first request of a connection, amid what the server writes before its response.

Nobody takes events before the response is there, so they wait. As long as there is room for them, the
reader comes to the response, whatever the other tasks do. If there are more, then the reader waits for
room and the client for the reader.
-/

namespace LinterClient.Session

open Protocol (Incoming)
open Program (Always Sooner)
open Relation (CutExpand ReflTransGen)
open LinterClient.System (Goes Passing)

variable {σ : Type} {i : Nat}

section Adding

variable {s s' s'' : Session σ}

/-- All that happens to a connection is that more frames wait to be written. -/
def Adds (i : Nat) (s s' : Session σ) : Prop :=
  ∀ c, s.connection? i = some c → ∃ more : List Json,
    s'.connection? i = some { c with outbox := c.outbox ++ more.map .frame }

theorem Adds.of_connections (connections : s'.connections = s.connections) : Adds i s s' := by
  intro c found
  rw [connection?, connections]
  exact ⟨[], by rw [List.map_nil, List.append_nil]; exact found⟩

theorem Adds.refl (s : Session σ) : Adds i s s :=
  .of_connections rfl

theorem Adds.trans (first : Adds i s s') (next : Adds i s' s'') : Adds i s s'' := by
  intro c found
  obtain ⟨more, found'⟩ := first c found
  obtain ⟨more', found''⟩ := next _ found'
  exact ⟨more ++ more', by rw [found'', List.map_append, ← List.append_assoc]⟩

theorem adds_enqueue (frame : Json) :
    Adds i s (onConnection i false (·.enqueue (.frame frame)) s).2 := by
  intro c found
  rw [onConnection_snd, connection?_of_change found]
  unfold Connection.enqueue
  split
  · exact ⟨[frame], rfl⟩
  · exact ⟨[], by simp⟩

variable [Host σ]

/-- The task that answers a request of the server comes to its end. -/
theorem passing_answer (id : Json) (method : String) (params : Json) :
    Passing (Adds i) Job.IsAnnouncement
      (true, (runJob handle (.answer i id method params) : Task σ (Option Job))) := by
  have handles (s : Session σ) : (handle method params).Behaves (Adds i)
      (fun job => true = true ∧ job.IsAnnouncement) (fun _ => True) s :=
    (Sparing.handle method params s).allow (fun _ _ spares => .of_connections spares.connections)
      fun _ announces => ⟨rfl, announces⟩
  exact Always.bind (Always.bind handles fun _ => Always.bind (Always.bind (Always.await _) fun _ =>
    Always.modifyGet fun _ => adds_enqueue _) fun _ => Always.done trivial) fun _ => Always.done rfl

theorem passing_announcement {job : Job} (announces : job.IsAnnouncement) :
    Passing (Adds i) Job.IsAnnouncement (false, (runJob handle job : Task σ (Option Job))) := by
  obtain ⟨m, action, rfl⟩ := announces
  refine Always.bind (Always.bind (Always.bind (Always.modifyGet fun _ => .of_connections rfl) fun _ =>
    Always.bind (Always.await _) fun _ => Always.modifyGet fun _ => .of_connections rfl) fun answer => ?_)
      fun _ => Always.done rfl
  split
  · exact Always.modify fun _ => .of_connections rfl
  · exact Always.done trivial

end Adding

/-- A client that opens a connection, and what the server is still going to write on it. -/
structure Opening (σ : Type) where
  system : System (Session σ) Wait Job
  unsent : List UInt8

section Opening

variable [Host σ]

/-- Whether an operation of the client opens a connection. -/
def Opens (s : Session σ) (operation : Task σ (Except ClientError Unit)) : Prop :=
  operation = attach ∨
    operation = start ∧ ∃ launch, s.client.launch = some launch ∧ s.canLaunch launch = .ok ()

/-- The task that carries an operation out and then ends. -/
def carriesOut (operation : Task σ (Except ClientError Unit)) : Task σ (Option Job) := do
  let _ ← operation
  pure none

namespace Opening

omit [Host σ] in
def start (s : Session σ) (operation : Task σ (Except ClientError Unit)) (bytes : List UInt8) :
    Opening σ :=
  ⟨⟨s, [carriesOut operation]⟩, bytes⟩

/-- A task goes on, bytes of the server arrive, or something else happens: time passes, the user answers,
settings change. -/
inductive Step (i : Nat) : Opening σ → Opening σ → Prop
  | runs {system system' : System (Session σ) Wait Job} {unsent : List UInt8} :
    System.Steps rules system system' → Step i ⟨system, unsent⟩ ⟨system', unsent⟩
  | arrives {system : System (Session σ) Wait Job} {c : Connection} (bytes unsent : List UInt8) :
    system.state.connection? i = some c → Step i ⟨system, bytes ++ unsent⟩
      ⟨⟨changeConnection i (fun c => { c with received := c.received ++ bytes }) system.state,
        system.tasks⟩, unsent⟩
  | outside {system : System (Session σ) Wait Job} {s : Session σ} {unsent : List UInt8} :
    Spares system.state s → s.canLaunch = system.state.canLaunch →
      Step i ⟨system, unsent⟩ ⟨⟨s, system.tasks⟩, unsent⟩

/-- The first request waits, its response is there but not read, and only the time limit of the request
can make a task go on. -/
structure Blocked (i : Nat) (response : Json) (o : Opening σ) : Prop where
  waiting : ∃ c, o.system.state.connection? i = some c ∧ 1 ∈ c.pending ∧
    response ∈ (Framing.scan false c.received).1
  still : ∀ p ∈ o.system.tasks, System.enabled rules o.system.state p = true →
    ∃ deadline, p.waitsFor? = some (.reply i 1 deadline)

end Opening

end Opening

/-- A connection on which only the first request waits. -/
structure Asking (c : Connection) : Prop where
  pending : c.pending = [1]
  given : 1 < c.nextId
  writing : c.writing = true
  taken : c.inputClosed = false
  frames : ∀ o ∈ c.outbox, ∃ message, o = .frame message
  unended : c.outputClosed = false
  listening : c.listening = true
  unabandoned : c.abandoned = false
  room : c.events.length ≤ Connection.eventCapacity

/-- The client sends its first request, or it waits for the response. -/
inductive Greets (i : Nat) : Task σ (Option Job) → Prop where
  | sends {request : Task σ (Except RequestError Json)} {params : Option Json}
    (next : Except RequestError Json → Task σ (Option Job)) :
    Sends i 1 "initialize" params request → Greets i (request >>= next)
  | awaits {request : Task σ (Except RequestError Json)}
    (next : Except RequestError Json → Task σ (Option Job)) :
    Awaits i 1 "initialize" request → Greets i (request >>= next)

/-- The first request waits, and so far the reader read some of the frames that stand before its
response. -/
structure Greeting (i : Nat) (frames : List Json) (response : Json) (o : Opening σ) (c : Connection)
    (stand : ReaderStand) (client : Task σ (Option Job)) (left : List Json)
    (others : Multiset (Bool × Task σ (Option Job))) : Prop where
  found : o.system.state.connection? i = some c
  tasks : (o.system.tasks : Multiset _) =
    client ::ₘ stand.task i ::ₘ writer i ::ₘ others.map Prod.snd
  client : Greets i client
  others : ∀ q ∈ others, Passing (Adds i) Job.IsAnnouncement q
  asks : Asking c
  going : stand.isOver = false
  scanned : Framing.scan false (c.received ++ o.unsent) = (left ++ [response], none)
  events : c.events ++ stand.due ++ left.filterMap event? = frames.filterMap event?
  earlier : ∀ f ∈ left, ∀ body, Incoming.ofJson? f ≠ some (.response 1 body)

/-- How much is left to do: frames to read, the request to send, the tasks that the reader started, and
frames to write. -/
abbrev Load (σ : Type) : Type := Nat × Nat × Multiset (Bool × Task σ (Option Job)) × Nat

/-- The turns that a reader has to take before it reads on. -/
def ReaderStand.ahead : ReaderStand → Nat
  | .idle => 0
  | _ => 1

theorem ReaderStand.ahead_le (stand : ReaderStand) : stand.ahead ≤ 1 := by
  cases stand <;> simp [ahead]

def loadOf (i : Nat) (c : Connection) (stand : ReaderStand) (client : Task σ (Option Job))
    (left : List Json) (others : Multiset (Bool × Task σ (Option Job))) : Load σ :=
  (2 * left.length + stand.ahead,
    if client.waitsFor? = some (.room i) then 1 else 0, others, c.outbox.length)

def Less : Load σ → Load σ → Prop :=
  Prod.Lex (· < ·) (Prod.Lex (· < ·) (Prod.Lex (CutExpand Sooner) (· < ·)))

theorem wellFounded_less : WellFounded (Less : Load σ → Load σ → Prop) :=
  WellFounded.prod_lex wellFounded_lt (WellFounded.prod_lex wellFounded_lt
    (WellFounded.prod_lex Program.wellFounded_sooner.cutExpand wellFounded_lt))

section Greeting

variable {frames left : List Json} {response : Json} {o : Opening σ} {c : Connection} {stand : ReaderStand}
variable {client : Task σ (Option Job)} {others : Multiset (Bool × Task σ (Option Job))}
variable {system : System (Session σ) Wait Job}

theorem Asking.takes (asks : Asking c) (more : List Json) :
    Asking { c with outbox := c.outbox ++ more.map .frame } :=
  { asks with
    frames := by
      intro o member
      rcases List.mem_append.mp member with old | new
      · exact asks.frames o old
      · obtain ⟨message, -, rfl⟩ := List.mem_map.mp new
        exact ⟨message, rfl⟩ }

/-- What the reader finds next is what stands first among the frames that are left. -/
theorem Greeting.next_cases (greeting : Greeting i frames response o c stand client left others)
    (known : c.next ≠ .wait) : ∃ value rest later, c.next = .message value rest ∧
      left ++ [response] = value :: later ∧ Framing.scan false (rest ++ o.unsent) = (later, none) := by
  have unended := greeting.asks.unended
  have scanned := greeting.scanned
  have grown : Framing.read false (c.received ++ o.unsent) = c.next.grow o.unsent := by
    rw [Connection.next, unended] at known ⊢
    exact Framing.read_append known
  cases next : c.next with
  | wait => exact absurd next known
  | finished =>
    rw [next] at grown
    rw [Framing.scan_finished grown] at scanned
    simp at scanned
  | failed e =>
    rw [next] at grown
    rw [Framing.scan_failed grown] at scanned
    simp at scanned
  | message value rest =>
    rw [next] at grown
    rw [Framing.scan_message grown] at scanned
    obtain ⟨whole, ending⟩ := Prod.mk.inj scanned
    exact ⟨value, rest, _, rfl, whole.symm, Prod.ext rfl ending⟩

theorem remaining_of_continued [Host σ] {stop : Program.Pause (Session σ) Wait Job (Option Job)}
    {p : Task σ (Option Job)} (goes : continued handle stop = p) (unended : p ≠ .done none) :
    System.remaining rules stop = [p] := by
  subst goes
  cases stop with
  | done next =>
    cases next with
    | none => exact absurd rfl unended
    | some job => rfl
  | waiting on next => rfl

theorem ReaderStand.task_unended (going : stand.isOver = false) :
    (stand.task i : Task σ (Option Job)) ≠ .done none := by
  cases stand with
  | reporting reason => cases going
  | ended => cases going
  | _ => nofun

variable [Host σ]

/-- The client sends its request, and then waits for the response. -/
theorem Greeting.sends {request : Task σ (Except RequestError Json)} {params : Option Json}
    {next : Except RequestError Json → Task σ (Option Job)}
    (greeting : Greeting i frames response o c stand (request >>= next) left others)
    (sends : Sends i 1 "initialize" params request) (goes : Goes rules (request >>= next) o.system system) :
    ∃ c' client', Greeting i frames response ⟨system, o.unsent⟩ c' stand client' left others ∧
      Less (loadOf i c' stand client' left others) (loadOf i c stand (request >>= next) left others) := by
  have found := greeting.found
  have tasks := goes.tasks_of greeting.tasks
  obtain ⟨first, waits⟩ := sends.waits
  obtain ⟨awaits, went⟩ := sends.sends _ c found greeting.asks.writing
  obtain ⟨deadline, rest, waits'⟩ := awaits.waits
  have resumed : System.resume (request >>= next) = System.resume request >>= next :=
    Program.resume_bind next fun a is => by rw [waits] at is; cases is
  have whole := Program.advance_bind_of_waits next waits'
  have state := goes.state
  rw [resumed, whole, went] at tasks state
  have found' : system.state.connection? i =
      some { c with outbox := c.outbox ++ [.frame (Protocol.request 1 "initialize" params)] } := by
    rw [state]
    show (enqueued _ _ _).connection? i = _
    rw [enqueued, connection?_of_change found, Connection.enqueue, if_pos greeting.asks.writing]
  refine ⟨_, _, { greeting with
    found := found'
    tasks := tasks
    client := by
      rw [waits'] at awaits
      exact .awaits next awaits
    asks := greeting.asks.takes [Protocol.request 1 "initialize" params] }, ?_⟩
  have before : (request >>= next).waitsFor? = some (.room i) := by rw [waits]; rfl
  refine .right _ (.left _ _ ?_)
  rw [before, if_pos rfl, if_neg (by simp [Program.waitsFor?])]
  exact Nat.zero_lt_one

/-- A client that was woken takes what there is for its request, which then waits no more. -/
theorem Greeting.woken {request : Task σ (Except RequestError Json)}
    {next : Except RequestError Json → Task σ (Option Job)}
    (greeting : Greeting i frames response o c stand (request >>= next) left others)
    (awaits : Awaits i 1 "initialize" request) (goes : Goes rules (request >>= next) o.system system)
    (behaves : NeverRevives i 1 (fun next => ∀ job ∈ next, job.IsAside) (request >>= next)) :
    Settled i 1 system.state ∧ ∃ deadline, (request >>= next).waitsFor? = some (.reply i 1 deadline) := by
  have found := greeting.found
  obtain ⟨deadline, rest, waits⟩ := awaits.waits
  obtain ⟨patience, takes⟩ := awaits.takes
  have resumed : System.resume (request >>= next) = System.resume request >>= next :=
    Program.resume_bind next fun a is => by rw [waits] at is; cases is
  have ended := takes _ c found
  have settled : Settled i 1 (changeConnection i (fun c => (c.takeReply 1).2) o.system.state) :=
    ⟨_, connection?_of_change found, greeting.asks.given, fun waiting => (mem_forget.mp waiting).2 rfl⟩
  have going := Always.resume behaves o.system.state
  rw [resumed] at going
  have rest := going.rest ended
  obtain ⟨kept, -⟩ := rest.advance (fun _ settled => settled) fun first next settled => next (first settled)
  have state := goes.state
  rw [resumed, Program.advance_bind, ended] at state
  refine ⟨by rw [state]; exact kept settled, deadline, ?_⟩
  rw [waits]
  rfl

omit [Host σ] in
/-- What the reader finds before the response changes nothing of the connection. -/
theorem Handles.unawaited {value : Json} {s s' : Session σ} {jobs : List Job}
    (handles : Handles i value s stand s' jobs) (found : s.connection? i = some c)
    (other : ∀ id body, Incoming.ofJson? value = some (.response id body) → id ∉ c.pending) :
    s'.connection? i = some c ∧ (jobs = [] ∨ ∃ id method params, jobs = [.answer i id method params]) := by
  cases handles with
  | delivers parsed =>
    refine ⟨?_, .inl rfl⟩
    rw [connection?_of_change found, deliver_of_unknown (other _ _ parsed)]
  | asks parsed => exact ⟨found, .inr ⟨_, _, _, rfl⟩⟩
  | logs parsed connections =>
    refine ⟨?_, .inl rfl⟩
    rw [connection?, connections]
    exact found
  | _ => exact ⟨found, .inl rfl⟩

/-- The reader made its way, and may have started to answer a request of the server. -/
theorem Greeting.reads (greeting : Greeting i frames response o c stand client left others)
    (goes : Goes rules (stand.task i) o.system system)
    {stop : Program.Pause (Session σ) Wait Job (Option Job)} {s : Session σ} {jobs : List Job}
    (went : (System.resume (stand.task i)).advance o.system.state = (stop, s, jobs))
    {c' : Connection} {stand' : ReaderStand} {left' : List Json}
    (stands : continued handle stop = stand'.task i)
    (started : jobs = [] ∨ ∃ id method params, jobs = [.answer i id method params])
    (found : s.connection? i = some c') (asks : Asking c') (going : stand'.isOver = false)
    (scanned : Framing.scan false (c'.received ++ o.unsent) = (left' ++ [response], none))
    (events : c'.events ++ stand'.due ++ left'.filterMap event? =
      c.events ++ stand.due ++ left.filterMap event?)
    (earlier : ∀ f ∈ left', f ∈ left) :
    ∃ others', Greeting i frames response ⟨system, o.unsent⟩ c' stand' client left' others' := by
  have before : (o.system.tasks : Multiset _) =
      stand.task i ::ₘ client ::ₘ writer i ::ₘ others.map Prod.snd := by
    rw [greeting.tasks, Multiset.cons_swap]
  have tasks := goes.tasks_of before
  have state := goes.state
  rw [went] at tasks state
  rw [remaining_of_continued stands (ReaderStand.task_unended going)] at tasks
  obtain ⟨new, ran, passing⟩ : ∃ new : Multiset (Bool × Task σ (Option Job)),
      new.map Prod.snd = ↑(jobs.map (rules : Rules (Session σ) Wait Job).run) ∧
        ∀ q ∈ new, Passing (Adds i) Job.IsAnnouncement q := by
    rcases started with rfl | ⟨id, method, params, rfl⟩
    · exact ⟨0, rfl, nofun⟩
    · refine ⟨{(true, runJob handle (.answer i id method params))}, rfl, fun q member => ?_⟩
      rw [Multiset.mem_singleton.mp member]
      exact passing_answer id method params
  refine ⟨new + others, state ▸ found, ?_, greeting.client, ?_, asks, going, scanned,
    events.trans greeting.events, fun f member => greeting.earlier f (earlier f member)⟩
  · rw [tasks, Multiset.map_add, ran]
    simp only [Multiset.coe_singleton, ← Multiset.singleton_add]
    abel
  · intro q member
    exact (Multiset.mem_add.mp member).elim (passing q) (greeting.others q)

omit [Host σ] in
/-- Once the response is read, the request waits no more, and there was room for all events. -/
theorem Greeting.answered {s s' : Session σ} {stand' : ReaderStand} {jobs : List Job} {rest : List UInt8}
    {body : Json.Members} (greeting : Greeting i frames response o c .idle client [] others)
    (answers : Incoming.ofJson? response = some (.response 1 body))
    (found : s.connection? i = some { c with received := rest })
    (handles : Handles i response s stand' s' jobs) :
    Settled i 1 s' ∧ (frames.filterMap event?).length ≤ Connection.eventCapacity := by
  have asks := greeting.asks
  have count : c.events.length = (frames.filterMap event?).length := by
    rw [← greeting.events]
    simp [ReaderStand.due]
  refine ⟨?_, count ▸ asks.room⟩
  cases handles with
  | delivers parsed =>
    obtain ⟨rfl, rfl⟩ : 1 = _ ∧ body = _ := by simpa [answers] using parsed
    refine ⟨_, connection?_of_change found, ?_⟩
    simp [Connection.deliver, Connection.forget, asks.pending, asks.given]
  | _ parsed => simp [answers] at parsed

/-- A frame before the response is read, and its event is kept for later. -/
theorem Greeting.passes {f : Json} {stand' : ReaderStand} {rest : List UInt8} {s : Session σ}
    {stop : Program.Pause (Session σ) Wait Job (Option Job)} {jobs : List Job}
    (greeting : Greeting i frames response o c .idle client (f :: left) others)
    (goes : Goes rules (ReaderStand.idle.task i) o.system system)
    (went : (System.resume (ReaderStand.idle.task i)).advance o.system.state = (stop, s, jobs))
    (stands : continued handle stop = stand'.task i)
    (scanned : Framing.scan false (rest ++ o.unsent) = (left ++ [response], none))
    (handles : Handles i f (changeConnection i (fun c => { c with received := rest }) o.system.state)
      stand' s jobs) : ∃ others', Greeting i frames response ⟨system, o.unsent⟩
        { c with received := rest } stand' client left others' := by
  have found := connection?_of_change (f := fun c => { c with received := rest }) greeting.found
  have other (id : Nat) (body : Json.Members) (parsed : Incoming.ofJson? f = some (.response id body)) :
      id ∉ c.pending := by
    rw [greeting.asks.pending, List.mem_singleton]
    rintro rfl
    exact greeting.earlier f List.mem_cons_self body parsed
  obtain ⟨found', started⟩ := handles.unawaited found other
  obtain ⟨-, -, -, due, going⟩ := handles.view found
  refine greeting.reads goes went stands started found' { greeting.asks with } going scanned ?_
    fun f member => List.mem_cons_of_mem _ member
  rw [due]
  cases known : event? f <;> simp [ReaderStand.due, known]

/-- The reader reads what stands before the response, or it comes to the response. Then there was room for
all events. -/
theorem Greeting.reader_goes (greeting : Greeting i frames response o c stand client left others)
    (goes : Goes rules (stand.task i) o.system system) {body : Json.Members}
    (answers : Incoming.ofJson? response = some (.response 1 body)) :
    (Settled i 1 system.state ∧ (frames.filterMap event?).length ≤ Connection.eventCapacity) ∨
      ∃ c' stand' left' others',
        Greeting i frames response ⟨system, o.unsent⟩ c' stand' client left' others' ∧
          Less (loadOf i c' stand' client left' others') (loadOf i c stand client left others) := by
  obtain ⟨stand', stands, done⟩ := Session.reader_goes handle stand greeting.found
  rcases went : (System.resume (stand.task i)).advance o.system.state with ⟨stop, s, jobs⟩
  rw [went] at stands done
  generalize finding? i (stand.task i) o.system.state = finding at done
  have asks := greeting.asks
  have state : system.state = s := by rw [goes.state, went]
  cases done with
  | @takes value rest _ _ _ next handles =>
    obtain ⟨value', rest', later, next', order, scanned⟩ := greeting.next_cases (by simp [next])
    obtain ⟨rfl, rfl⟩ : value = value' ∧ rest = rest' := by simpa [next] using next'
    cases left with
    | nil =>
      obtain ⟨rfl, -⟩ : response = value ∧ [] = later := by simpa using order
      have found := connection?_of_change (f := fun c => { c with received := rest }) greeting.found
      exact .inl (state ▸ greeting.answered answers found handles)
    | cons f left =>
      obtain ⟨rfl, rfl⟩ : f = value ∧ left ++ [response] = later := by simpa using order
      obtain ⟨others', greeting'⟩ := greeting.passes goes went stands scanned handles
      refine .inr ⟨_, stand', left, others', greeting', .left _ _ ?_⟩
      have ahead := stand'.ahead_le
      show 2 * left.length + stand'.ahead < 2 * (left.length + 1)
      omega
  | rests next =>
    have enabled := goes.enabled
    have known := (hasNext_iff asks.unabandoned).mp (ready_incoming greeting.found ▸ enabled)
    exact absurd next known
  | quits abandoned =>
    rw [asks.unabandoned] at abandoned
    cases abandoned
  | stops next =>
    obtain ⟨value, rest, later, next', -⟩ := greeting.next_cases (by
      rcases next with ⟨next, -⟩ | ⟨e, next, -⟩ <;> simp [next])
    rcases next with ⟨next, -⟩ | ⟨e, next, -⟩ <;> simp [next'] at next
  | @acknowledges id =>
    have found' : (enqueued i (.frame (Protocol.response id (.ok .null))) o.system.state).connection? i =
        some { c with outbox := c.outbox ++ [Protocol.response id (.ok .null)].map .frame } := by
      rw [enqueued, connection?_of_change greeting.found, Connection.enqueue, if_pos asks.writing]
      rfl
    obtain ⟨others', greeting'⟩ := greeting.reads goes went stands (.inl rfl) found' (asks.takes _) rfl
      greeting.scanned rfl fun _ member => member
    exact .inr ⟨_, .idle, left, others', greeting', .left _ _ (Nat.lt_succ_self _)⟩
  | @notes e _ noted =>
    have enabled : ready (.eventRoom i) o.system.state = true := goes.enabled
    have room : c.events.length < Connection.eventCapacity := by
      simpa [ready_eventRoom greeting.found, Connection.hasEventRoom, asks.unabandoned, asks.listening]
        using enabled
    have found' := connection?_addEvent greeting.found asks.unabandoned asks.listening noted
    obtain ⟨others', greeting'⟩ := greeting.reads goes went stands (.inl rfl) found'
      { asks with room := by rw [List.length_append]; exact room } rfl greeting.scanned
      (by simp [ReaderStand.due]) fun _ member => member
    exact .inr ⟨_, .idle, left, others', greeting', .left _ _ (Nat.lt_succ_self _)⟩
  | reports noted => cases greeting.going
  | remains => cases greeting.going

theorem Greeting.writer_goes (greeting : Greeting i frames response o c stand client left others)
    (goes : Goes rules (writer i) o.system system) :
    ∃ c', Greeting i frames response ⟨system, o.unsent⟩ c' stand client left others ∧
      Less (loadOf i c' stand client left others) (loadOf i c stand client left others) := by
  have asks := greeting.asks
  have enabled : ready (.outgoing i) o.system.state = true := goes.enabled
  rw [ready_outgoing greeting.found] at enabled
  cases waiting : c.outbox with
  | nil => simp [waiting] at enabled
  | cons first rest =>
    obtain ⟨message, rfl⟩ := asks.frames first (waiting ▸ List.mem_cons_self)
    have writes : c.writeNext =
        (true, { c with outbox := rest, written := c.written ++ Framing.encode message }) := by
      simp [Connection.writeNext, waiting, asks.taken]
    have went : (System.resume (writer i)).advance o.system.state =
        (.done (some (.writer i)), changeConnection i (·.writeNext.2) o.system.state, []) := by
      have sent := onConnection_of_found false (·.writeNext) greeting.found
      rw [writes] at sent
      dsimp [writer, Program.await, bind, Program.bind, System.resume, Program.modifyGet, Program.advance]
      rw [sent]
      rfl
    have before : (o.system.tasks : Multiset _) =
        writer i ::ₘ client ::ₘ stand.task i ::ₘ others.map Prod.snd := by
      rw [greeting.tasks, Multiset.cons_swap (stand.task i), Multiset.cons_swap client]
    have after := goes.tasks_of before
    have state := goes.state
    rw [went] at after state
    replace after : (system.tasks : Multiset _) =
        writer i ::ₘ client ::ₘ stand.task i ::ₘ others.map Prod.snd := after
    refine ⟨{ c with outbox := rest, written := c.written ++ Framing.encode message }, { greeting with
      found := by rw [state, connection?_of_change greeting.found, writes]
      tasks := by rw [after, Multiset.cons_swap _ client, Multiset.cons_swap _ (stand.task i)]
      asks := { asks with
        frames := fun o member => asks.frames o (waiting ▸ List.mem_cons_of_mem _ member) } }, ?_⟩
    refine .right _ (.right _ (.right _ ?_))
    rw [waiting]
    exact Nat.lt_succ_self _

theorem Greeting.other_goes (greeting : Greeting i frames response o c stand client left others)
    {q : Bool × Task σ (Option Job)} (listed : q ∈ others) (goes : Goes rules q.2 o.system system) :
    ∃ c' others', Greeting i frames response ⟨system, o.unsent⟩ c' stand client left others' ∧
      Less (loadOf i c' stand client left others') (loadOf i c stand client left others) := by
  obtain ⟨rest, rfl⟩ := Multiset.exists_cons_of_mem listed
  obtain ⟨adds, new, ran, sooner⟩ := (greeting.others q listed).goes (r := rules) Adds.refl Adds.trans
    (fun _ => passing_announcement) o.system.state
  obtain ⟨more, found⟩ := adds c greeting.found
  have before : (o.system.tasks : Multiset _) =
      q.2 ::ₘ client ::ₘ stand.task i ::ₘ writer i ::ₘ rest.map Prod.snd := by
    rw [greeting.tasks, Multiset.map_cons, Multiset.cons_swap (writer i), Multiset.cons_swap (stand.task i),
      Multiset.cons_swap client]
  have tasks := goes.tasks_of before
  refine ⟨_, new + rest, { greeting with
    found := goes.state ▸ found
    tasks := ?_
    others := ?_
    asks := greeting.asks.takes more }, ?_⟩
  · rw [tasks, ← ran, Multiset.map_add]
    simp only [← Multiset.singleton_add]
    abel
  · intro q' member
    rcases Multiset.mem_add.mp member with fresh | old
    · exact (sooner q' fresh).2
    · exact greeting.others q' (Multiset.mem_cons_of_mem old)
  · refine .right _ (.right _ (.left _ _ ⟨new, q, fun q' fresh => (sooner q' fresh).1, ?_⟩))
    rw [← Multiset.singleton_add]
    abel

/-- Whichever task goes on: less is left to do, or the request waits no more. -/
theorem Greeting.goes {p : Task σ (Option Job)} {body : Json.Members}
    (greeting : Greeting i frames response o c stand client left others)
    (goes : Goes rules p o.system system)
    (stays : StaysSettled i 1 o.system)
    (answers : Incoming.ofJson? response = some (.response 1 body)) :
    (Settled i 1 system.state ∧ ((∃ deadline, p.waitsFor? = some (.reply i 1 deadline)) ∨
      (frames.filterMap event?).length ≤ Connection.eventCapacity)) ∨
      ∃ c' stand' client' left' others',
        Greeting i frames response ⟨system, o.unsent⟩ c' stand' client' left' others' ∧
          Less (loadOf i c' stand' client' left' others') (loadOf i c stand client left others) := by
  have listed : p ∈ (o.system.tasks : Multiset _) := by
    obtain ⟨rest, tasks, -⟩ := goes.tasks
    exact tasks ▸ Multiset.mem_cons_self p rest
  have keeps := stays p (Multiset.mem_coe.mp listed)
  rw [greeting.tasks, Multiset.mem_cons, Multiset.mem_cons, Multiset.mem_cons, Multiset.mem_map] at listed
  rcases listed with rfl | rfl | rfl | ⟨q, listed, rfl⟩
  · cases greeting.client with
    | sends next sends =>
      obtain ⟨c', client', greeting', less⟩ := greeting.sends sends goes
      exact .inr ⟨c', stand, client', left, others, greeting', less⟩
    | awaits next awaits =>
      obtain ⟨settled, woken⟩ := greeting.woken awaits goes keeps
      exact .inl ⟨settled, .inl woken⟩
  · rcases greeting.reader_goes goes answers with
      ⟨settled, room⟩ | ⟨c', stand', left', others', greeting', less⟩
    · exact .inl ⟨settled, .inr room⟩
    · exact .inr ⟨c', stand', client, left', others', greeting', less⟩
  · obtain ⟨c', greeting', less⟩ := greeting.writer_goes goes
    exact .inr ⟨c', stand, client, left, others, greeting', less⟩
  · obtain ⟨c', others', greeting', less⟩ := greeting.other_goes listed goes
    exact .inr ⟨c', stand, client, left, others', greeting', less⟩

/-- While there is room for all events, something other than the time limit can go on. -/
theorem Greeting.unblocked (greeting : Greeting i frames response o c stand client left others)
    (blocked : o.Blocked i response) : Connection.eventCapacity < (frames.filterMap event?).length := by
  obtain ⟨⟨c', found', -, unread⟩, still⟩ := blocked
  obtain rfl : c = c' := Option.some.inj (greeting.found.symm.trans found')
  have asks := greeting.asks
  have waits {p : Task σ (Option Job)} {on : Wait} (waiting : p.waitsFor? = some on)
      (task : p ∈ client ::ₘ stand.task i ::ₘ writer i ::ₘ others.map Prod.snd)
      (other : ∀ deadline, on ≠ .reply i 1 deadline) : ready on o.system.state = false := by
    by_contra goes
    have enabled : System.enabled rules o.system.state p = true := by
      cases p with
      | wait on' next =>
        obtain rfl : on' = on := Option.some.inj waiting
        exact Bool.not_eq_false _ ▸ goes
      | _ => rfl
    obtain ⟨deadline, is⟩ := still p (Multiset.mem_coe.mp (greeting.tasks ▸ task)) enabled
    exact other deadline (Option.some.inj (waiting.symm.trans is))
  have written : c.outbox = [] := by
    have idle := waits (p := writer i) rfl (by simp) (by simp)
    simpa [ready_outgoing greeting.found] using idle
  have reader {on : Wait} (waiting : (stand.task i : Task σ (Option Job)).waitsFor? = some on) :=
    waits waiting (by simp)
  have events := congrArg List.length greeting.events
  cases stand with
  | idle =>
    have none_ := reader rfl (by simp)
    rw [ready_incoming greeting.found, ← Bool.not_eq_true, hasNext_iff asks.unabandoned, not_not,
      Connection.next, asks.unended] at none_
    simp [Framing.scan_wait none_] at unread
  | acknowledging id =>
    have full := reader rfl (by simp)
    simp [ready_room greeting.found, Connection.hasRoom, asks.writing, written,
      Connection.outboxCapacity] at full
  | noting e =>
    have full := reader rfl (by simp)
    have full : Connection.eventCapacity ≤ c.events.length := by
      simpa [ready_eventRoom greeting.found, Connection.hasEventRoom, asks.unabandoned, asks.listening]
        using full
    simp only [ReaderStand.due, List.length_append, List.length_singleton] at events
    omega
  | reporting reason => cases greeting.going
  | ended => cases greeting.going

end Greeting

/-- Bytes that arrive were still to be written. -/
theorem Greeting.arrives {i : Nat} {frames left : List Json} {response : Json} {c : Connection}
    {stand : ReaderStand} {client : Task σ (Option Job)} {others : Multiset (Bool × Task σ (Option Job))}
    {system : System (Session σ) Wait Job} {bytes unsent : List UInt8}
    (greeting : Greeting i frames response ⟨system, bytes ++ unsent⟩ c stand client left others) :
    Greeting i frames response
      ⟨⟨changeConnection i (fun c => { c with received := c.received ++ bytes }) system.state, system.tasks⟩,
        unsent⟩ { c with received := c.received ++ bytes } stand client left others :=
  { greeting with
    found := connection?_of_change greeting.found
    asks := { greeting.asks with }
    scanned := by rw [← greeting.scanned]; simp }

section Begins

variable [Host σ] {s : Session σ} {operation : Task σ (Except ClientError Unit)}

theorem useConnection_begins (j : Nat) (rest : Except ClientError Unit → Task σ (Option Job))
    (s : Session σ) : ∃ params next, (useConnection j >>= rest).advance s =
      (request j "initialize" (some params) >>= next).advance s := by
  unfold useConnection handshake
  simp only [Program.bind_assoc]
  exact ⟨_, _, rfl⟩

theorem start_begins {launch : Launch} (launches : s.client.launch = some launch)
    (able : s.canLaunch launch = .ok ()) (rest : Except ClientError Unit → Task σ (Option Job)) :
    (start >>= rest).advance s = ((connect Connection.defaultRequestTimeout (.running launch) >>=
      useConnection) >>= rest).advance s := by
  unfold start
  rw [Program.bind_assoc]
  dsimp only [Program.get, bind, Program.bind, Program.advance]
  rw [launches]
  dsimp only
  rw [able]

/-- The first go of such an operation makes a connection, starts its tasks and comes to the first
request. -/
theorem Opens.begins (opens : Opens s operation) : ∃ request params next process s',
    Sends s.connections.length 1 "initialize" params request ∧
      (carriesOut operation).advance s = (.waiting (.room s.connections.length) next, s',
        [.writer s.connections.length, .reader s.connections.length]) ∧
      (∃ rest, .wait (.room s.connections.length) next = request >>= rest) ∧
      s'.connection? s.connections.length =
        some (Connection.new Connection.defaultRequestTimeout process).newRequest.2 := by
  let i := s.connections.length
  have connects (process : ServerProcess) : ∃ s₁,
      (connect Connection.defaultRequestTimeout process).advance s = (.done i, s₁, [.writer i, .reader i]) ∧
        s₁.connection? i = some (.new Connection.defaultRequestTimeout process) :=
    ⟨_, rfl, List.getElem?_concat_length⟩
  obtain ⟨process, whole⟩ : ∃ process, (carriesOut operation).advance s =
      (connect Connection.defaultRequestTimeout process >>= fun i => useConnection i >>= fun _ =>
        (pure none : Task σ (Option Job))).advance s := by
    unfold carriesOut
    rcases opens with rfl | ⟨rfl, launch, launches, able⟩
    · refine ⟨.none, ?_⟩
      rw [attach, Program.bind_assoc]
    · refine ⟨.running launch, ?_⟩
      rw [start_begins launches able, Program.bind_assoc]
  obtain ⟨s₁, first, found⟩ := connects process
  obtain ⟨params, rest, greets⟩ := useConnection_begins i (fun _ => (pure none : Task σ (Option Job))) s₁
  obtain ⟨sends, went⟩ := request_begins "initialize" (some params) found
  obtain ⟨next, waits⟩ := sends.waits
  have resumed : System.resume (request i "initialize" (some params) : Task σ (Except RequestError Json)) =
      request i "initialize" (some params) := rfl
  rw [resumed] at went waits sends
  have second := Program.advance_bind_of_waits rest waits
  rw [went] at second
  have requested := connection?_of_change (f := fun c => c.newRequest.2) found
  refine ⟨_, some params, _, process, _, sends, ?_, ⟨rest, by rw [waits]; rfl⟩, requested⟩
  rw [whole, Program.advance_bind, first]
  dsimp only [Program.Pause.andThen]
  rw [greets, second]
  rfl

variable {frames left : List Json} {response : Json} {body : Json.Members} {bytes : List UInt8}

/-- After its first go, the request is about to be sent and all frames are left to be read. -/
theorem Greeting.start {system : System (Session σ) Wait Job} (opens : Opens s operation)
    (holds : Framing.scan false bytes = (frames ++ [response], none))
    (earlier : ∀ f ∈ frames, ∀ body, Incoming.ofJson? f ≠ some (.response 1 body))
    (goes : Goes rules (carriesOut operation) (Opening.start s operation bytes).system system) :
    ∃ c client, Greeting s.connections.length frames response ⟨system, bytes⟩ c .idle client frames 0 := by
  obtain ⟨request, params, next, process, s', sends, went, ⟨rest, client⟩, found⟩ := opens.begins
  obtain ⟨-, waits⟩ := sends.waits
  have begun : System.resume (carriesOut operation) = carriesOut operation := by
    rcases opens with rfl | ⟨rfl, -⟩ <;> rfl
  have alone : ((Opening.start s operation bytes).system.tasks : Multiset (Task σ (Option Job))) =
      carriesOut operation ::ₘ 0 := rfl
  have tasks := goes.tasks_of alone
  have state := goes.state
  have before : (Opening.start s operation bytes).system.state = s := rfl
  rw [begun, before, went] at tasks state
  refine ⟨(Connection.new Connection.defaultRequestTimeout process).newRequest.2,
    .wait (.room s.connections.length) next, {
    found := by rw [state]; exact found
    tasks := ?_
    client := by rw [client]; exact .sends rest sends
    others := fun q member => absurd member (Multiset.notMem_zero q)
    asks := ⟨rfl, Nat.lt_succ_self 1, rfl, rfl, nofun, rfl, rfl, rfl, Nat.zero_le _⟩
    going := rfl
    scanned := holds
    events := rfl
    earlier := earlier }⟩
  rw [tasks, Multiset.cons_swap (ReaderStand.idle.task _)]
  rfl

/-- Where the opening of a connection stands: at its start, amid the first request, or after it. -/
inductive Opening.Stands (i : Nat) (operation : Task σ (Except ClientError Unit)) (bytes : List UInt8)
    (frames : List Json) (response : Json) (o : Opening σ) : Prop
  | starts {s : Session σ} : s.connections.length = i → Opens s operation → o = .start s operation bytes →
    Stands i operation bytes frames response o
  | greets {c : Connection} {stand : ReaderStand} {client : Task σ (Option Job)} {left : List Json}
    {others : Multiset (Bool × Task σ (Option Job))} :
    Greeting i frames response o c stand client left others → Stands i operation bytes frames response o
  | settled : Settled i 1 o.system.state → Stands i operation bytes frames response o

omit [Host σ] in
theorem connection?_length (s : Session σ) : s.connection? s.connections.length = none :=
  List.getElem?_eq_none (Nat.le_refl _)

theorem Opens.spares {s' : Session σ} (opens : Opens s operation) (spares : Spares s s')
    (able : s'.canLaunch = s.canLaunch) : Opens s' operation := by
  unfold Opens
  rw [spares.client, able]
  exact opens

/-- Whatever happens, the opening goes on to stand somewhere. -/
theorem Opening.Stands.step {i : Nat} {o o' : Opening σ}
    (stands : o.Stands i operation bytes frames response) (stays : StaysSettled i 1 o.system)
    (holds : Framing.scan false bytes = (frames ++ [response], none))
    (earlier : ∀ f ∈ frames, ∀ body, Incoming.ofJson? f ≠ some (.response 1 body))
    (answers : Incoming.ofJson? response = some (.response 1 body)) (step : o.Step i o') :
    o'.Stands i operation bytes frames response ∧ StaysSettled i 1 o'.system := by
  cases step with
  | @runs system system' unsent steps =>
    obtain ⟨kept, stays'⟩ := stays.step steps
    refine ⟨?_, stays'⟩
    obtain ⟨p, goes⟩ := steps.goes
    cases stands with
    | starts here opens same =>
      subst here
      cases same
      obtain ⟨rest, alone, -⟩ := goes.tasks
      obtain rfl : p = _ := Multiset.mem_singleton.mp (alone ▸ Multiset.mem_cons_self p rest)
      obtain ⟨c, client, greeting⟩ := Greeting.start opens holds earlier goes
      exact .greets greeting
    | greets greeting =>
      rcases greeting.goes goes stays answers with ⟨settled, -⟩ | ⟨_, _, _, _, _, greeting', -⟩
      · exact .settled settled
      · exact .greets greeting'
    | settled settled => exact .settled (kept settled)
  | @arrives system c bytes' unsent found =>
    refine ⟨?_, stays⟩
    cases stands with
    | starts here opens same =>
      subst here
      cases same
      rw [connection?_length] at found
      cases found
    | greets greeting => exact .greets greeting.arrives
    | settled settled => exact .settled (settled.change fun _ => .of_same rfl rfl)
  | @outside system s' unsent spares able =>
    refine ⟨?_, stays⟩
    cases stands with
    | starts here opens same =>
      cases same
      exact .starts (by rw [spares.connections, here]) (opens.spares spares able) rfl
    | greets greeting =>
      refine .greets { greeting with found := ?_ }
      rw [connection?, spares.connections]
      exact greeting.found
    | settled settled =>
      refine .settled ?_
      rw [Settled, connection?, spares.connections]
      exact settled

/-- More events than there is room for keep the reader from the response. -/
theorem Greeting.blocks {i : Nat} {o : Opening σ} {c : Connection} {stand : ReaderStand}
    {client : Task σ (Option Job)} {others : Multiset (Bool × Task σ (Option Job))}
    (greeting : Greeting i frames response o c stand client left others)
    (stays : StaysSettled i 1 o.system) (arrived : o.unsent = [])
    (answers : Incoming.ofJson? response = some (.response 1 body))
    (many : Connection.eventCapacity < (frames.filterMap event?).length) :
    ∃ o', ReflTransGen (Opening.Step i) o o' ∧ o'.Blocked i response := by
  induction load : loadOf i c stand client left others using wellFounded_less.induction
    generalizing o c stand client left others with
  | _ load ih =>
    subst load
    by_cases still : ∀ p ∈ o.system.tasks, System.enabled rules o.system.state p = true →
        ∃ deadline, p.waitsFor? = some (.reply i 1 deadline)
    · refine ⟨o, .refl, ⟨⟨c, greeting.found, ?_, ?_⟩, still⟩⟩
      · rw [greeting.asks.pending]
        exact List.mem_singleton_self 1
      · have scanned := greeting.scanned
        rw [arrived, List.append_nil] at scanned
        rw [scanned]
        exact List.mem_append_right _ (List.mem_singleton_self _)
    · push Not at still
      obtain ⟨p, listed, enabled, other⟩ := still
      obtain ⟨system, steps, goes⟩ := System.steps_of_mem listed enabled
      rcases greeting.goes goes stays answers with ⟨-, woken | room⟩ | ⟨_, _, _, _, _, greeting', less⟩
      · obtain ⟨deadline, waits⟩ := woken
        exact absurd waits (other deadline)
      · exact absurd room (Nat.not_le.mpr many)
      · obtain ⟨o', reaches, blocked⟩ := ih _ less greeting' (stays.step steps).2 arrived rfl
        exact ⟨o', .head (.runs steps) reaches, blocked⟩

theorem Opens.staysSettled {i : Nat} (opens : Opens s operation) (bytes : List UInt8) :
    StaysSettled i 1 (Opening.start s operation bytes).system := by
  intro p listed
  rw [List.mem_singleton.mp listed]
  rcases opens with rfl | ⟨rfl, -⟩
  · exact Always.bind NeverRevives.attach fun _ => Always.done nofun
  · exact Always.bind NeverRevives.start fun _ => Always.done nofun

end Begins

/-- While a connection is opened, it can come to a state in which only the time limit of the first request
lets a task go on, although the response was written: exactly if more events stand before the response
than wait to be taken. -/
theorem handshake_blocked_iff [Host σ] (s : Session σ) (operation : Task σ (Except ClientError Unit))
    (opens : Opens s operation) (frames : List Json) (response : Json) (body : Json.Members)
    (bytes : List UInt8) (holds : Framing.scan false bytes = (frames ++ [response], none))
    (earlier : ∀ f ∈ frames, ∀ body, Incoming.ofJson? f ≠ some (.response 1 body))
    (answers : Incoming.ofJson? response = some (.response 1 body)) :
    (∃ o, ReflTransGen (Opening.Step s.connections.length) (.start s operation bytes) o ∧
      o.Blocked s.connections.length response) ↔
        Connection.eventCapacity < (frames.filterMap event?).length := by
  have stays : StaysSettled s.connections.length 1 (Opening.start s operation bytes).system :=
    opens.staysSettled bytes
  constructor
  · rintro ⟨o, reaches, blocked⟩
    have stands : o.Stands s.connections.length operation bytes frames response ∧
        StaysSettled s.connections.length 1 o.system := by
      clear blocked
      induction reaches with
      | refl => exact ⟨.starts rfl opens rfl, stays⟩
      | tail _ step ih => exact ih.1.step ih.2 holds earlier answers step
    obtain ⟨c, found, waits, -⟩ := blocked.waiting
    cases stands.1 with
    | starts here _ same =>
      cases same
      rw [← here] at found
      cases (connection?_length _).symm.trans found
    | greets greeting => exact greeting.unblocked blocked
    | settled settled =>
      obtain ⟨c', found', -, settled⟩ := settled
      cases found.symm.trans found'
      exact absurd waits settled
  · intro many
    have enabled : System.enabled rules s (carriesOut operation) = true := by
      rcases opens with rfl | ⟨rfl, -⟩ <;> rfl
    have listed : carriesOut operation ∈ (Opening.start s operation bytes).system.tasks :=
      List.mem_singleton_self _
    obtain ⟨system, steps, goes⟩ := System.steps_of_mem listed enabled
    obtain ⟨c, client, greeting⟩ := Greeting.start opens holds earlier goes
    have opened : (Opening.start s operation bytes).Step s.connections.length ⟨system, bytes ++ []⟩ := by
      rw [List.append_nil]
      exact .runs steps
    have arrived := Opening.Step.arrives bytes [] greeting.found
    rw [← List.append_nil bytes] at greeting
    obtain ⟨o, reaches, blocked⟩ := greeting.arrives.blocks (stays.step steps).2 rfl answers many
    exact ⟨o, .head opened (.head arrived reaches), blocked⟩

def statusNote : Json :=
  .ofMembers [("jsonrpc", .str "2.0"), ("method", .str "eslint/status"),
    ("params", .ofMembers [("state", .ofNat 1)])]

def introduction : Json :=
  .ofMembers [("jsonrpc", .str "2.0"), ("id", .ofNat 1), ("result", .ofMembers [("capabilities", .obj [])])]

/-- One notification more than there is room for stands before the response. -/
theorem handshake_blocked_iff_full :
    let s : Session MemoryStore := .new emptyStore .inMemory none (fun _ => .error .noLaunch) 0
    let frames := List.replicate 257 statusNote
    let bytes := (frames ++ [introduction]).flatMap Framing.encode
    Opens s attach ∧ Framing.scan false bytes = (frames ++ [introduction], none) ∧
      (∀ f ∈ frames, ∀ body, Incoming.ofJson? f ≠ some (.response 1 body)) ∧
      (∃ body, Incoming.ofJson? introduction = some (.response 1 body)) ∧
      ∃ o, ReflTransGen (Opening.Step 0) (.start s attach bytes) o ∧ o.Blocked 0 introduction := by
  intro s frames bytes
  have opens : Opens s attach := .inl rfl
  have note : Framing.Carried statusNote := ⟨by decide +kernel, by decide +kernel⟩
  have last : Framing.Carried introduction := ⟨by decide +kernel, by decide +kernel⟩
  have carried : ∀ m ∈ frames ++ [introduction], Framing.Carried m := by
    intro m member
    rcases List.mem_append.mp member with earlier | final
    · rw [List.eq_of_mem_replicate earlier]
      exact note
    · rw [List.mem_singleton.mp final]
      exact last
  have holds := Framing.scan_encode carried
  have earlier : ∀ f ∈ frames, ∀ body, Incoming.ofJson? f ≠ some (.response 1 body) := by
    intro f member
    rw [List.eq_of_mem_replicate member]
    exact nofun
  have answers : ∃ body, Incoming.ofJson? introduction = some (.response 1 body) := ⟨_, rfl⟩
  obtain ⟨body, response⟩ := answers
  have many : Connection.eventCapacity < (frames.filterMap event?).length := by decide +kernel
  have blocked := (handshake_blocked_iff s attach opens frames introduction body bytes holds earlier
    response).mpr many
  exact ⟨opens, holds, earlier, ⟨body, response⟩, blocked⟩

end LinterClient.Session
