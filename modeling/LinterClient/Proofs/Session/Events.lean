import LinterClient.Proofs.Framing.Growing
import LinterClient.Proofs.Session.Deeds
import LinterClient.Proofs.Session.Inquiries

/-!
The events of a connection.

What was taken, what waits to be taken, what the reader is about to add and what is still to be read are
together the notifications in the bytes of the server, in their order, and the end of these bytes. As
long as the reader and the receiver take their turns, the first of these comes to be all.
-/

namespace LinterClient.Session

open Protocol (Incoming)

variable {σ : Type} {i : Nat}

/-- The event that a message of the server becomes. -/
def event? (message : Json) : Option ServerEvent :=
  match Incoming.ofJson? message with
  | some (.notification method params) =>
    if method = "window/logMessage" then none else some (.notification method params)
  | _ => none

def stopReason : Framing.Ending → StopReason
  | .finished => .exited
  | .failed e => .failed e

/-- The events in the bytes of a server, which may have ended. -/
def eventsIn (ended : Bool) (bytes : List UInt8) : List ServerEvent :=
  let (messages, ending) := Framing.scan ended bytes
  messages.filterMap event? ++ (ending.map (.stopped ∘ stopReason)).toList

/-- A connection of which the reader and the receiver see the same. -/
structure SameView (c c' : Connection) : Prop where
  received : c'.received = c.received
  outputClosed : c'.outputClosed = c.outputClosed
  events : c'.events = c.events
  listening : c'.listening = c.listening
  abandoned : c'.abandoned = c.abandoned

theorem SameView.trans {c c' c'' : Connection} (first : SameView c c') (second : SameView c' c'') :
    SameView c c'' :=
  ⟨second.received.trans first.received, second.outputClosed.trans first.outputClosed,
    second.events.trans first.events, second.listening.trans first.listening,
    second.abandoned.trans first.abandoned⟩

/-- Others leave alone what the reader of a connection and the receiver of its events see. -/
def Aloof (i : Nat) (s s' : Session σ) : Prop :=
  ∀ c, s.connection? i = some c → ∃ c', s'.connection? i = some c' ∧ SameView c c'

/-- Takes the first event of a connection. -/
def receive (i : Nat) (s : Session σ) : Option ServerEvent × Session σ :=
  onConnection i none (fun c =>
    match c.events with
    | [] => (none, c)
    | e :: rest => (some e, { c with events := rest })) s

theorem takeEvent_eq {s : Session σ} (server : s.client.server = some i) :
    takeEvent s = receive i s := by
  rw [takeEvent, server]
  rfl

/-- The reader of a connection and the receiver of its events, with the events that were taken and the
bytes that the server wrote. -/
structure Listening (σ : Type) where
  session : Session σ
  reader : Task σ (Option Job)
  taken : List ServerEvent
  sent : List UInt8
  closed : Bool

/-- The reader goes on, the receiver takes an event, the server writes or ends, or others do something. -/
inductive Listening.Move (σ : Type) (i : Nat) where
  | read
  | take
  | sends (bytes : List UInt8)
  | closes
  | aside (f : Session σ → Session σ) (keeps : ∀ s, Aloof i s (f s))

section Moves

variable [Host σ] (handler : String → Json → Task σ (Except Protocol.Error Json))

namespace Listening

def move (l : Listening σ) : Move σ i → Listening σ
  | .read =>
    if System.enabled (jobRules handler) l.session l.reader then
      let stop := (System.resume l.reader).advance l.session
      { l with session := stop.2.1, reader := continued handler stop.1 }
    else l
  | .take =>
    let (event, session) := receive i l.session
    { l with session, taken := l.taken ++ event.toList }
  | .sends bytes =>
    if l.closed then l
    else
      { l with
        session := changeConnection i (fun c => { c with received := c.received ++ bytes }) l.session
        sent := l.sent ++ bytes }
  | .closes =>
    { l with
      session := changeConnection i (fun c => { c with outputClosed := true }) l.session
      closed := true }
  | .aside f _ => { l with session := f l.session }

/-- The states of a run without end. -/
def run (start : Listening σ) (moves : Nat → Move σ i) : Nat → Listening σ
  | 0 => start
  | n + 1 => (run start moves n).move handler (moves n)

omit [Host σ] in
/-- A new connection. -/
def start (s : Session σ) (requestTimeout : Nat) (process : ServerProcess) : Listening σ :=
  ⟨((connect requestTimeout process).advance s).2.1, Session.reader s.connections.length, [], [], false⟩

/-- The reader takes its turn again and again, also when what it sends finds room, and the receiver takes
its turn again and again. -/
structure Fair (i : Nat) (states : Nat → Listening σ) (moves : Nat → Move σ i) : Prop where
  reads : ∀ n, ∃ m ≥ n, moves m = .read ∧ ready (.room i) (states m).session = true
  takes : ∀ n, ∃ m ≥ n, moves m = .take

end Listening

end Moves

/-! ## What the bytes of a server hold -/

section Bytes

variable {ended : Bool} {bytes rest : List UInt8} {message : Json}

theorem eventsIn_message (known : Framing.read ended bytes = .message message rest) :
    eventsIn ended bytes = (event? message).toList ++ eventsIn ended rest := by
  unfold eventsIn
  rw [Framing.scan_message known]
  cases known : event? message <;> simp [known]

theorem eventsIn_finished (known : Framing.read ended bytes = .finished) :
    eventsIn ended bytes = [.stopped .exited] := by
  rw [eventsIn, Framing.scan_finished known]
  rfl

theorem eventsIn_failed {e : Framing.Error} (known : Framing.read ended bytes = .failed e) :
    eventsIn ended bytes = [.stopped (.failed e)] := by
  rw [eventsIn, Framing.scan_failed known]
  rfl

theorem eventsIn_wait (known : Framing.read ended bytes = .wait) : eventsIn ended bytes = [] := by
  rw [eventsIn, Framing.scan_wait known]
  rfl

/-- A whole stream holds its notifications, and then its end. -/
theorem eventsIn_readAll (bytes : List UInt8) :
    eventsIn true bytes = (Framing.readAll bytes).1.filterMap event? ++
      [.stopped (stopReason (Framing.readAll bytes).2)] := by
  rw [eventsIn, Framing.scan_readAll]
  rfl

/-- An event is a message with a method other than that of logs, and without an id. -/
theorem event?_eq_some {e : ServerEvent} :
    event? message = some e ↔ ∃ method params, e = .notification method params ∧
      method ≠ "window/logMessage" ∧ message.get? "method" = some (.str method) ∧
      message.get? "id" = none ∧ params = (message.get? "params").getD .null := by
  have parsed : ∀ method params, Incoming.ofJson? message = some (.notification method params) ↔
      message.get? "method" = some (.str method) ∧ message.get? "id" = none ∧
        params = (message.get? "params").getD .null := by
    intro method params
    cases message with
    | obj m =>
      rw [← bind_asString?]
      show Incoming.ofJson? (.obj m) = _ ↔
        (Json.Members.get? m "method").bind Json.asString? = _ ∧ Json.Members.get? m "id" = _ ∧
          _ = (Json.Members.get? m "params").getD .null
      unfold Incoming.ofJson?
      dsimp only
      generalize Json.Members.get? m "id" = own
      generalize (Json.Members.get? m "method").bind Json.asString? = name
      cases own with
      | none => cases name <;> simp [eq_comm]
      | some own => cases name <;> grind
    | _ => simp [Incoming.ofJson?, Json.get?]
  constructor
  · intro known
    unfold event? at known
    split at known
    · rename_i method params found
      split at known
      · simp at known
      · rename_i other
        obtain ⟨name, unasked, value⟩ := (parsed method params).mp found
        exact ⟨method, params, by simpa using known.symm, other, name, unasked, value⟩
    · simp at known
  · rintro ⟨method, params, rfl, other, name, unasked, value⟩
    simp [event?, (parsed method params).mpr ⟨name, unasked, value⟩, other]

theorem stopReason_exited (bytes : List UInt8) :
    stopReason (Framing.readAll bytes).2 = .exited ↔
      ∃ frames : List (List UInt8), bytes = frames.flatten ∧ ∀ frame ∈ frames, Framing.IsFrame frame := by
  rw [← Framing.readAll_finished]
  cases (Framing.readAll bytes).2 <;> simp [stopReason]

end Bytes

/-! ## The books of a connection -/

/-- The event that a reader is about to add. -/
def ReaderStand.due : ReaderStand → List ServerEvent
  | .noting e => [e]
  | .reporting reason => [.stopped reason]
  | _ => []

/-- Whether a reader has come to the end. -/
def ReaderStand.isOver : ReaderStand → Bool
  | .reporting _ | .ended => true
  | _ => false

/-- The events that a reader is still going to find. -/
def ReaderStand.unread (stand : ReaderStand) (ended : Bool) (bytes : List UInt8) : List ServerEvent :=
  if stand.isOver then [] else eventsIn ended bytes

/-- Whatever the server goes on to write: the events in its bytes are those that were taken, that wait,
that are due, and that are still to be read. -/
structure Hears (i : Nat) (l : Listening σ) (c : Connection) (stand : ReaderStand) : Prop where
  found : l.session.connection? i = some c
  reader : l.reader = stand.task i
  unabandoned : c.abandoned = false
  listening : c.listening = true
  closed : c.outputClosed = l.closed
  events : ∀ ended more, (l.closed = true → ended = true ∧ more = []) →
    l.taken ++ c.events ++ stand.due ++ stand.unread ended (c.received ++ more) =
      eventsIn ended (l.sent ++ more)

section Steps

variable {l : Listening σ} {c c' : Connection} {s s' : Session σ} {stand stand' : ReaderStand}

theorem Hears.start (s : Session σ) (requestTimeout : Nat) (process : ServerProcess) :
    Hears s.connections.length (.start s requestTimeout process) (.new requestTimeout process) .idle where
  found := by
    show (s.connections ++ [_])[s.connections.length]? = _
    simp
  reader := rfl
  unabandoned := rfl
  listening := rfl
  closed := rfl
  events _ _ _ := rfl

theorem Hears.sameView (hears : Hears i l c stand) {session : Session σ}
    (found : session.connection? i = some c') (same : SameView c c') :
    Hears i { l with session } c' stand where
  found := found
  reader := hears.reader
  unabandoned := same.abandoned.trans hears.unabandoned
  listening := same.listening.trans hears.listening
  closed := same.outputClosed.trans hears.closed
  events ended more continues := by
    rw [same.events, same.received]
    exact hears.events ended more continues

/-- What the reader sees next it also sees when more was written. -/
theorem Hears.next_grows (hears : Hears i l c stand) {ended : Bool} {more : List UInt8}
    (continues : l.closed = true → ended = true ∧ more = []) (known : c.next ≠ .wait) :
    Framing.read ended (c.received ++ more) = c.next.grow more := by
  unfold Connection.next at known ⊢
  cases closed : c.outputClosed with
  | true =>
    obtain ⟨rfl, rfl⟩ := continues (hears.closed.symm.trans closed)
    rw [List.append_nil]
    cases Framing.read true c.received <;> simp [Framing.Read.grow]
  | false =>
    rw [closed] at known
    exact Framing.read_append known

theorem Handles.view {message : Json} {jobs : List Job} (handles : Handles i message s stand s' jobs)
    (found : s.connection? i = some c) :
    ∃ c', s'.connection? i = some c' ∧ SameView c c' ∧ stand.due = (event? message).toList ∧
      stand.isOver = false := by
  have same : SameView c c := ⟨rfl, rfl, rfl, rfl, rfl⟩
  cases handles with
  | ignores parsed => exact ⟨c, found, same, by rw [event?, parsed]; rfl, rfl⟩
  | acknowledges parsed => exact ⟨c, found, same, by rw [event?, parsed]; rfl, rfl⟩
  | asks parsed => exact ⟨c, found, same, by rw [event?, parsed]; rfl, rfl⟩
  | @delivers id body parsed =>
    refine ⟨_, connection?_of_change found, ?_, by rw [event?, parsed]; rfl, rfl⟩
    unfold Connection.deliver
    split <;> exact ⟨rfl, rfl, rfl, rfl, rfl⟩
  | logs parsed connections isLog =>
    refine ⟨c, ?_, same, by simp [event?, parsed, isLog, ReaderStand.due], rfl⟩
    rw [connection?, connections]
    exact found
  | notes parsed other => exact ⟨c, found, same, by simp [event?, parsed, other, ReaderStand.due], rfl⟩

/-- How much is left to do: each message costs the reader at most four turns, its own and those that it
makes necessary. -/
def ReaderStand.load (stand : ReaderStand) (c : Connection) : Nat :=
  let (messages, ending) := Framing.scan c.outputClosed c.received
  let own := match stand with
    | .noting _ | .reporting _ => 2
    | .acknowledging _ => 1
    | _ => 0
  (if stand.isOver then 0 else 4 * (messages.length + ending.toList.length)) + own + c.events.length

/-- The reader has nothing to do. -/
def ReaderStand.Rests (stand : ReaderStand) (c : Connection) : Prop :=
  stand = .ended ∨ stand = .idle ∧ c.next = .wait

theorem SameView.load (same : SameView c c') : stand.load c' = stand.load c := by
  simp only [ReaderStand.load, same.outputClosed, same.received, same.events]

theorem load_message {message : Json} {rest : List UInt8} (next : c.next = .message message rest)
    (own : stand'.isOver = false) :
    stand'.load { c with received := rest } < ReaderStand.idle.load c := by
  have scanned : Framing.scan c.outputClosed c.received = _ := Framing.scan_message next
  cases stand' <;> simp_all [ReaderStand.load, ReaderStand.isOver] <;> omega

/-- The books stay balanced if what the reader did is what was due. -/
theorem Hears.after (hears : Hears i l c stand) {session : Session σ} {reader : Task σ (Option Job)}
    (found : session.connection? i = some c') (stands : reader = stand'.task i)
    (unabandoned : c'.abandoned = c.abandoned) (listening : c'.listening = c.listening)
    (closed : c'.outputClosed = c.outputClosed)
    (balance : ∀ ended more, (l.closed = true → ended = true ∧ more = []) →
      c'.events ++ stand'.due ++ stand'.unread ended (c'.received ++ more) =
        c.events ++ stand.due ++ stand.unread ended (c.received ++ more)) :
    Hears i { l with session, reader } c' stand' where
  found := found
  reader := stands
  unabandoned := unabandoned.trans hears.unabandoned
  listening := listening.trans hears.listening
  closed := closed.trans hears.closed
  events ended more continues := by
    rw [← hears.events ended more continues]
    simpa only [List.append_assoc] using congrArg (l.taken ++ ·) (balance ended more continues)

theorem connection?_addEvent {e : ServerEvent} (found : s.connection? i = some c)
    (unabandoned : c.abandoned = false) (listening : c.listening = true)
    (noted : c.abandoned = true ∧ s' = s ∨ s' = changeConnection i (·.addEvent e) s) :
    s'.connection? i = some { c with events := c.events ++ [e] } := by
  rcases noted with ⟨abandoned, -⟩ | rfl
  · simp [unabandoned] at abandoned
  · rw [connection?_of_change found, Connection.addEvent, if_pos listening]

theorem load_stops {reason : StopReason}
    (next : c.next = .finished ∧ reason = .exited ∨ ∃ e, c.next = .failed e ∧ reason = .failed e) :
    (ReaderStand.reporting reason).load c < ReaderStand.idle.load c := by
  rcases next with ⟨next, -⟩ | ⟨e, next, -⟩
  · have scanned : Framing.scan c.outputClosed c.received = _ := Framing.scan_finished next
    simp [ReaderStand.load, ReaderStand.isOver, scanned]
  · have scanned : Framing.scan c.outputClosed c.received = _ := Framing.scan_failed next
    simp [ReaderStand.load, ReaderStand.isOver, scanned]

theorem ReaderGoes.hears {finding : Option Finding} {jobs : List Job} {reader : Task σ (Option Job)}
    (goes : ReaderGoes i l.session c stand finding stand' s' jobs) (hears : Hears i l c stand)
    (stands : reader = stand'.task i) :
    ∃ c', Hears i { l with session := s', reader } c' stand' ∧
      (stand'.load c' < stand.load c ∨ stand' = stand ∧ SameView c c' ∧ stand.Rests c) := by
  have same : SameView c c := ⟨rfl, rfl, rfl, rfl, rfl⟩
  have open_ := hears.unabandoned
  cases goes with
  | rests next =>
    exact ⟨c, hears.after hears.found stands rfl rfl rfl fun _ _ _ => rfl,
      .inr ⟨rfl, same, .inr ⟨rfl, next⟩⟩⟩
  | quits abandoned => simp [open_] at abandoned
  | remains =>
    exact ⟨c, hears.after hears.found stands rfl rfl rfl fun _ _ _ => rfl, .inr ⟨rfl, same, .inl rfl⟩⟩
  | @takes message rest _ _ _ next handles =>
    obtain ⟨c', found', view, due, going⟩ := handles.view (connection?_of_change hears.found)
    refine ⟨c', hears.after found' stands view.abandoned view.listening view.outputClosed ?_, .inl ?_⟩
    · intro ended more continues
      have grown : Framing.read ended (c.received ++ more) = .message message (rest ++ more) := by
        rw [hears.next_grows continues (by simp [next]), next]
        rfl
      rw [view.events, view.received, due, ReaderStand.unread, going]
      simp [ReaderStand.unread, ReaderStand.isOver, ReaderStand.due, eventsIn_message grown]
    · rw [view.load]
      exact load_message next going
  | @stops reason next =>
    refine ⟨_, hears.after (connection?_of_change hears.found) stands rfl rfl rfl ?_, .inl ?_⟩
    · intro ended more continues
      rcases next with ⟨next, rfl⟩ | ⟨e, next, rfl⟩
      · have grown : Framing.read ended (c.received ++ more) = .finished := by
          rw [hears.next_grows continues (by simp [next]), next]
          rfl
        simp [ReaderStand.unread, ReaderStand.isOver, ReaderStand.due, eventsIn_finished grown]
      · have grown : Framing.read ended (c.received ++ more) = .failed e := by
          rw [hears.next_grows continues (by simp [next]), next]
          rfl
        simp [ReaderStand.unread, ReaderStand.isOver, ReaderStand.due, eventsIn_failed grown]
    · exact load_stops next
  | @acknowledges id =>
    have view : SameView c (c.enqueue (.frame (Protocol.response id (.ok .null)))).2 := by
      unfold Connection.enqueue
      split <;> exact ⟨rfl, rfl, rfl, rfl, rfl⟩
    refine ⟨_, hears.after (connection?_of_change hears.found) stands view.abandoned view.listening
      view.outputClosed ?_, .inl ?_⟩
    · intro ended more _
      rw [view.events, view.received]
      rfl
    · rw [view.load]
      simp [ReaderStand.load, ReaderStand.isOver]
  | @notes e _ noted =>
    have found' := connection?_addEvent hears.found open_ hears.listening noted
    refine ⟨_, hears.after found' stands rfl rfl rfl ?_, .inl ?_⟩
    · intro ended more _
      simp [ReaderStand.unread, ReaderStand.isOver, ReaderStand.due]
    · simp [ReaderStand.load, ReaderStand.isOver]
      omega
  | @reports reason _ noted =>
    have found' := connection?_addEvent hears.found open_ hears.listening noted
    refine ⟨_, hears.after (connection?_of_change found') stands rfl rfl rfl ?_, .inl ?_⟩
    · intro ended more _
      simp [ReaderStand.unread, ReaderStand.isOver, ReaderStand.due]
    · simp [ReaderStand.load, ReaderStand.isOver]
      omega

theorem ready_incoming (found : s.connection? i = some c) : ready (.incoming i) s = c.hasNext := by
  show (s.connection? i).all _ = _
  rw [found]
  rfl

theorem ready_eventRoom (found : s.connection? i = some c) : ready (.eventRoom i) s = c.hasEventRoom := by
  show (s.connection? i).all _ = _
  rw [found]
  rfl

theorem ready_room (found : s.connection? i = some c) : ready (.room i) s = c.hasRoom := by
  show (s.connection? i).all _ = _
  rw [found]
  rfl

theorem ready_outgoing (found : s.connection? i = some c) :
    ready (.outgoing i) s = !c.outbox.isEmpty := by
  show (s.connection? i).all _ = _
  rw [found]
  rfl

theorem hasNext_iff (open_ : c.abandoned = false) : c.hasNext = true ↔ c.next ≠ .wait := by
  unfold Connection.hasNext
  rw [open_]
  cases c.next <;> simp

variable [Host σ] (handler : String → Json → Task σ (Except Protocol.Error Json))

/-- A reader that cannot go on waits for the server, or for room. -/
theorem ReaderStand.blocked (stand : ReaderStand) (found : s.connection? i = some c)
    (waits : System.enabled (jobRules handler) s (stand.task i) = false) :
    stand = .idle ∧ c.hasNext = false ∨ ready (.room i) s = false ∨ c.hasEventRoom = false := by
  cases stand with
  | idle => exact .inl ⟨rfl, ready_incoming found ▸ waits⟩
  | acknowledging id => exact .inr (.inl waits)
  | noting e => exact .inr (.inr (ready_eventRoom found ▸ waits))
  | reporting reason => exact .inr (.inr (ready_eventRoom found ▸ waits))
  | ended => cases waits

/-- A turn of the reader makes less to do, or it changes nothing. It changes something if there is room
for what the reader adds, unless the reader has nothing to do. -/
theorem Hears.read (hears : Hears i l c stand) :
    ∃ c' stand', Hears i (l.move handler (.read : Listening.Move σ i)) c' stand' ∧
      (stand'.load c' < stand.load c ∨ stand' = stand ∧ SameView c c' ∧
        (ready (.room i) l.session = true → c.events.length < Connection.eventCapacity →
          stand.Rests c)) := by
  by_cases goes : System.enabled (jobRules handler) l.session l.reader = true
  · rw [show l.move handler .read = _ from if_pos goes, hears.reader]
    obtain ⟨stand', stands', goes⟩ := reader_goes handler stand hears.found
    obtain ⟨c', hears', progress⟩ := goes.hears hears stands'
    refine ⟨c', stand', hears', progress.imp id ?_⟩
    rintro ⟨same, view, rests⟩
    exact ⟨same, view, fun _ _ => rests⟩
  · rw [show l.move handler .read = _ from if_neg goes]
    refine ⟨c, stand, hears, .inr ⟨rfl, ⟨rfl, rfl, rfl, rfl, rfl⟩, fun room free => ?_⟩⟩
    rw [hears.reader, Bool.not_eq_true] at goes
    rcases stand.blocked handler hears.found goes with ⟨rfl, noNext⟩ | noRoom | full
    · refine .inr ⟨rfl, not_not.mp fun known => ?_⟩
      rw [(hasNext_iff hears.unabandoned).mpr known] at noNext
      cases noNext
    · simp [room] at noRoom
    · simp [Connection.hasEventRoom, free] at full

omit [Host σ] in
theorem receive_eq (found : s.connection? i = some c) :
    (receive i s).1 = c.events.head? ∧
      (receive i s).2.connection? i = some { c with events := c.events.tail } := by
  rw [receive, onConnection_of_found _ _ found, connection?_of_change found]
  obtain ⟨_, _, _, _, _, _, _, _, _, events⟩ := c
  cases events <;> exact ⟨rfl, rfl⟩

/-- A turn of the receiver takes an event if one waits. -/
theorem Hears.take (hears : Hears i l c stand) :
    ∃ c', Hears i (l.move handler (.take : Listening.Move σ i)) c' stand ∧
      (stand.load c' < stand.load c ∨ SameView c c' ∧ c.events = []) := by
  obtain ⟨event, found⟩ := receive_eq hears.found
  refine ⟨_, ⟨found, hears.reader, hears.unabandoned, hears.listening, hears.closed, ?_⟩, ?_⟩
  · intro ended more continues
    refine .trans ?_ (hears.events ended more continues)
    show l.taken ++ (receive i l.session).1.toList ++ c.events.tail ++ _ ++ _ = _
    rw [event]
    cases c.events <;> simp
  · cases waiting : c.events with
    | nil => exact .inr ⟨⟨rfl, rfl, waiting.symm, rfl, rfl⟩, rfl⟩
    | cons e rest => exact .inl (by simp [ReaderStand.load, waiting])

/-- What the server writes is heard, and whether it ends. Without either, only less is left to do. -/
theorem Hears.move (hears : Hears i l c stand) (move : Listening.Move σ i) :
    ∃ c' stand', Hears i (l.move handler move) c' stand' ∧
      ((l.move handler move).sent = l.sent → (l.move handler move).closed = l.closed →
        stand'.load c' < stand.load c ∨ stand' = stand ∧ SameView c c' ∧
          (move = .take → c.events = []) ∧
          (move = .read → ready (.room i) l.session = true →
            c.events.length < Connection.eventCapacity → stand.Rests c)) := by
  have same : SameView c c := ⟨rfl, rfl, rfl, rfl, rfl⟩
  cases move with
  | read =>
    obtain ⟨c', stand', hears', progress⟩ := hears.read handler
    refine ⟨c', stand', hears', fun _ _ => progress.imp id ?_⟩
    rintro ⟨stays, view, rests⟩
    exact ⟨stays, view, nofun, fun _ => rests⟩
  | take =>
    obtain ⟨c', hears', progress⟩ := hears.take handler
    refine ⟨c', stand, hears', fun _ _ => progress.imp id ?_⟩
    rintro ⟨view, empty⟩
    exact ⟨rfl, view, fun _ => empty, nofun⟩
  | sends bytes =>
    by_cases closed : l.closed = true
    · rw [show l.move handler (.sends bytes) = l from if_pos closed]
      exact ⟨c, stand, hears, fun _ _ => .inr ⟨rfl, same, nofun, nofun⟩⟩
    · rw [show l.move handler (.sends bytes) = _ from if_neg closed]
      refine ⟨_, stand, ⟨connection?_of_change hears.found, hears.reader, hears.unabandoned,
        hears.listening, hears.closed, fun ended more _ => ?_⟩, fun nothing _ => .inr ⟨rfl, ?_⟩⟩
      · simpa only [List.append_assoc] using
          hears.events ended (bytes ++ more) fun closed' => absurd closed' closed
      · obtain rfl : bytes = [] := by simpa using nothing
        exact ⟨⟨List.append_nil _, rfl, rfl, rfl, rfl⟩, nofun, nofun⟩
  | closes =>
    refine ⟨_, stand, ⟨connection?_of_change hears.found, hears.reader, hears.unabandoned,
      hears.listening, rfl, fun ended more continues => ?_⟩, fun _ already => .inr ⟨rfl, ?_⟩⟩
    · exact hears.events ended more fun _ => continues rfl
    · have closed : l.closed = true := already.symm
      exact ⟨⟨rfl, (hears.closed.trans closed).symm, rfl, rfl, rfl⟩, nofun, nofun⟩
  | aside f keeps =>
    obtain ⟨c', found, view⟩ := keeps l.session c hears.found
    exact ⟨c', stand, hears.sameView found view, fun _ _ => .inr ⟨rfl, view, nofun, nofun⟩⟩

omit [Host σ] in
/-- If nothing waits and the reader rests, then all was taken. -/
theorem Hears.complete (hears : Hears i l c stand) (empty : c.events = []) (rests : stand.Rests c) :
    l.taken = eventsIn l.closed l.sent := by
  have balance := hears.events l.closed [] fun closed => ⟨closed, rfl⟩
  rw [empty, List.append_nil, List.append_nil, List.append_nil] at balance
  rw [← balance]
  rcases rests with rfl | ⟨rfl, next⟩
  · simp [ReaderStand.due, ReaderStand.unread, ReaderStand.isOver]
  · rw [Connection.next, hears.closed] at next
    simp [ReaderStand.due, ReaderStand.unread, ReaderStand.isOver, eventsIn_wait next]

omit [Host σ] in
/-- What was taken stands at the beginning of the events in the bytes of the server. -/
theorem Hears.taken_prefix (hears : Hears i l c stand) : l.taken <+: eventsIn l.closed l.sent := by
  have balance := hears.events l.closed [] fun closed => ⟨closed, rfl⟩
  simp only [List.append_nil, List.append_assoc] at balance
  exact ⟨_, balance⟩

end Steps

/-! ## Whole runs -/

section Runs

variable [Host σ] {handler : String → Json → Task σ (Except Protocol.Error Json)}
variable {start : Listening σ} {moves : Nat → Listening.Move σ i} {c : Connection} {stand : ReaderStand}

theorem Hears.run (hears : Hears i start c stand) (n : Nat) :
    ∃ c stand, Hears i (start.run handler moves n) c stand := by
  induction n with
  | zero => exact ⟨c, stand, hears⟩
  | succ n ih =>
    obtain ⟨c, stand, hears⟩ := ih
    obtain ⟨c', stand', hears', -⟩ := hears.move handler (moves n)
    exact ⟨c', stand', hears'⟩

theorem Listening.taken_grows (l : Listening σ) (move : Listening.Move σ i) :
    l.taken <+: (l.move handler move).taken := by
  cases move with
  | take => exact ⟨_, rfl⟩
  | read | sends =>
    unfold Listening.move
    dsimp only
    split <;> exact List.prefix_rfl
  | closes | aside => exact List.prefix_rfl

/-- From some time on, the server writes nothing more. -/
def Listening.Quiet (states : Nat → Listening σ) (n : Nat) : Prop :=
  ∀ k ≥ n, (states k).sent = (states n).sent ∧ (states k).closed = (states n).closed

omit [Host σ] in
theorem Listening.Quiet.later {states : Nat → Listening σ} {n k : Nat} (quiet : Quiet states n)
    (later : n ≤ k) : Quiet states k := fun m after =>
  have now := quiet k later
  have then_ := quiet m (later.trans after)
  ⟨then_.1.trans now.1.symm, then_.2.trans now.2.symm⟩

variable {n k : Nat}

/-- While the server writes nothing, either something was done or all is as it was. -/
theorem Hears.waits (hears : Hears i (start.run handler moves n) c stand)
    (quiet : Listening.Quiet (start.run handler moves) n) (later : n ≤ k) :
    (∃ m ≥ n, ∃ c' stand', Hears i (start.run handler moves m) c' stand' ∧
      stand'.load c' < stand.load c) ∨
    ∃ c', Hears i (start.run handler moves k) c' stand ∧ SameView c c' := by
  induction k, later using Nat.le_induction with
  | base => exact .inr ⟨c, hears, rfl, rfl, rfl, rfl, rfl⟩
  | succ k later ih =>
    rcases ih with done | ⟨c', hears', same⟩
    · exact .inl done
    obtain ⟨c'', stand', hears'', progress⟩ := hears'.move handler (moves k)
    obtain ⟨nothing, open_⟩ := (quiet.later later) (k + 1) (Nat.le_succ k)
    rcases progress nothing open_ with less | ⟨rfl, view, -⟩
    · exact .inl ⟨k + 1, by omega, c'', stand', hears'', by rwa [same.load] at less⟩
    · exact .inr ⟨c'', hears'', same.trans view⟩

/-- Nothing was done only if the receiver found nothing, and the reader had nothing to do. -/
theorem Hears.idles (hears : Hears i (start.run handler moves n) c stand)
    (quiet : Listening.Quiet (start.run handler moves) n) (later : n ≤ k) :
    (∃ m ≥ n, ∃ c' stand', Hears i (start.run handler moves m) c' stand' ∧
      stand'.load c' < stand.load c) ∨
    ∃ c', Hears i (start.run handler moves k) c' stand ∧ c'.events = c.events ∧
      (moves k = .take → c.events = []) ∧
      (moves k = .read → ready (.room i) (start.run handler moves k).session = true →
        c.events.length < Connection.eventCapacity → stand.Rests c') := by
  rcases hears.waits quiet later with done | ⟨c', hears', same⟩
  · exact .inl done
  obtain ⟨c'', stand', hears'', progress⟩ := hears'.move handler (moves k)
  obtain ⟨nothing, open_⟩ := (quiet.later later) (k + 1) (Nat.le_succ k)
  rcases progress nothing open_ with less | ⟨-, -, found, rests⟩
  · exact .inl ⟨k + 1, by omega, c'', stand', hears'', by rwa [same.load] at less⟩
  · rw [same.events] at found rests
    exact .inr ⟨c', hears', same.events, found, rests⟩

/-- In a fair run, all that the server wrote is taken some time after it stopped writing. -/
theorem Hears.settles (hears : Hears i (start.run handler moves n) c stand)
    (fair : Listening.Fair i (start.run handler moves) moves)
    (quiet : Listening.Quiet (start.run handler moves) n) :
    ∃ m ≥ n, (start.run handler moves m).taken =
      eventsIn (start.run handler moves m).closed (start.run handler moves m).sent := by
  induction left : stand.load c using Nat.strong_induction_on generalizing n c stand with
  | _ left ih =>
    subst left
    obtain ⟨t, later, takes⟩ := fair.takes n
    obtain ⟨r, later', reads, room⟩ := fair.reads n
    rcases hears.idles quiet later with ⟨m, after, c', stand', hears', less⟩ | ⟨-, -, -, empty, -⟩
    · obtain ⟨m', after', all⟩ := ih _ less hears' (quiet.later after) rfl
      exact ⟨m', after.trans after', all⟩
    rcases hears.idles quiet later' with
      ⟨m, after, c', stand', hears', less⟩ | ⟨c', hears', same, -, rests⟩
    · obtain ⟨m', after', all⟩ := ih _ less hears' (quiet.later after) rfl
      exact ⟨m', after.trans after', all⟩
    · have empty := empty takes
      have free : c.events.length < Connection.eventCapacity := by rw [empty]; decide
      exact ⟨r, later', hears'.complete (same.trans empty) (rests reads room free)⟩

theorem Listening.run_grows (later : n ≤ k) :
    (start.run handler moves n).taken <+: (start.run handler moves k).taken := by
  induction k, later using Nat.le_induction with
  | base => exact List.prefix_rfl
  | succ k _ ih => exact ih.trans (Listening.taken_grows _ _)

end Runs

/-- The receiver of events takes the notifications in the bytes of the server, in their order, and then
the end of these bytes. It takes nothing else, and in a fair run it comes to take all. -/
theorem events_are_notifications [Host σ]
    (handler : String → Json → Task σ (Except Protocol.Error Json)) (s : Session σ)
    (requestTimeout : Nat) (process : ServerProcess)
    (moves : Nat → Listening.Move σ s.connections.length) :
    let states := (Listening.start s requestTimeout process).run handler moves
    (∀ n, (states n).taken <+: eventsIn (states n).closed (states n).sent) ∧
    (Listening.Fair s.connections.length states moves → ∀ n, Listening.Quiet states n →
      ∃ m, ∀ k ≥ m, (states k).taken = eventsIn (states n).closed (states n).sent) ∧
    (∀ bytes, eventsIn true bytes = (Framing.readAll bytes).1.filterMap event? ++
      [.stopped (stopReason (Framing.readAll bytes).2)]) ∧
    (∀ message e, event? message = some e ↔ ∃ method params, e = .notification method params ∧
      method ≠ "window/logMessage" ∧ message.get? "method" = some (.str method) ∧
      message.get? "id" = none ∧ params = (message.get? "params").getD .null) ∧
    ∀ bytes, stopReason (Framing.readAll bytes).2 = .exited ↔
      ∃ frames : List (List UInt8), bytes = frames.flatten ∧ ∀ frame ∈ frames, Framing.IsFrame frame := by
  intro states
  have hears : ∀ n, ∃ c stand, Hears s.connections.length (states n) c stand :=
    fun n => (Hears.start s requestTimeout process).run n
  refine ⟨fun n => ?_, fun fair n quiet => ?_, eventsIn_readAll, fun _ _ => event?_eq_some,
    stopReason_exited⟩
  · obtain ⟨c, stand, hears⟩ := hears n
    exact hears.taken_prefix
  · obtain ⟨c, stand, now⟩ := hears n
    obtain ⟨m, later, all⟩ := now.settles fair quiet
    refine ⟨m, fun k after => ?_⟩
    obtain ⟨c', stand', then_⟩ := hears k
    have bound := then_.taken_prefix
    rw [(quiet k (later.trans after)).1, (quiet k (later.trans after)).2] at bound
    rw [(quiet m later).1, (quiet m later).2] at all
    have grows : (states m).taken <+: (states k).taken := Listening.run_grows after
    rw [all] at grows
    exact bound.sublist.antisymm grows.sublist

section Ended

variable [Host σ] (handler : String → Json → Task σ (Except Protocol.Error Json))
variable {l : Listening σ} {c : Connection}

theorem Listening.move_read_of_ended (ended : l.reader.answer? = some none) :
    l.move handler (.read : Listening.Move σ i) = l := by
  obtain ⟨session, reader, taken, sent, closed⟩ := l
  cases reader with
  | done r =>
    obtain rfl : r = none := by simpa [Program.answer?] using ended
    rfl
  | _ => simp [Program.answer?] at ended

theorem Listening.move_take_of_empty (found : l.session.connection? i = some c) (empty : c.events = []) :
    l.move handler (.take : Listening.Move σ i) = l := by
  obtain ⟨event, -⟩ := receive_eq found
  have same : (receive i l.session).2 = l.session := by
    rw [receive, onConnection_snd]
    exact changeConnection_of_same found (by rw [empty])
  show (⟨(receive i l.session).2, l.reader, l.taken ++ (receive i l.session).1.toList, l.sent, l.closed⟩ :
    Listening σ) = l
  rw [event, same, empty]
  simp

end Ended

/-- A server that writes two messages and ends. -/
def farewell : Nat → Listening.Move MemoryStore 0
  | 0 => .sends (Framing.encode (.ofNat 7) ++
      Framing.encode (.ofMembers [("method", .str "eslint/status"), ("params", .ofNat 2)]))
  | 1 => .closes
  | n + 2 => if n % 2 = 0 then .read else .take

def parting : Nat → Listening MemoryStore :=
  (Listening.start (.new emptyStore .inMemory none (fun _ => .ok ()) 0) 1000 .none).run handle farewell

theorem parting_rests {n : Nat} (later : 12 ≤ n) : parting n = parting 12 := by
  have rests : (parting 12).reader.answer? = some none ∧
      ((parting 12).session.connection? 0).map (·.events) = some [] := by decide +kernel
  obtain ⟨ended, found⟩ := rests
  obtain ⟨c, found, empty⟩ := Option.map_eq_some_iff.mp found
  induction n, later using Nat.le_induction with
  | base => rfl
  | succ n later ih =>
    obtain ⟨k, rfl⟩ := Nat.exists_eq_add_of_le' (show 2 ≤ n by omega)
    show (parting (k + 2)).move handle (if k % 2 = 0 then .read else .take) = _
    rw [ih]
    split
    · exact Listening.move_read_of_ended handle ended
    · exact Listening.move_take_of_empty handle found empty

/-- The server wrote a message that is none, and one that is a notification. -/
theorem events_are_notifications_parting :
    Listening.Fair 0 parting farewell ∧ Listening.Quiet parting 12 ∧
      ∃ m, ∀ k ≥ m, (parting k).taken =
        [.notification "eslint/status" (.ofNat 2), .stopped .exited] := by
  have fair : Listening.Fair 0 parting farewell := by
    constructor
    · intro n
      refine ⟨2 * n + 12, by omega, ?_, ?_⟩
      · show (if (2 * n + 10) % 2 = 0 then _ else _) = _
        rw [if_pos (by omega)]
      · rw [parting_rests (by omega)]
        decide +kernel
    · intro n
      refine ⟨2 * n + 13, by omega, ?_⟩
      show (if (2 * n + 11) % 2 = 0 then _ else _) = _
      rw [if_neg (by omega)]
  have quiet : Listening.Quiet parting 12 := by
    intro k later
    rw [parting_rests later]
    exact ⟨rfl, rfl⟩
  obtain ⟨-, settles, -⟩ := events_are_notifications handle
    (.new emptyStore .inMemory none (fun _ => .ok ()) 0) 1000 .none farewell
  obtain ⟨m, all⟩ := settles fair 12 quiet
  have events : eventsIn (parting 12).closed (parting 12).sent =
      [.notification "eslint/status" (.ofNat 2), .stopped .exited] := by decide +kernel
  exact ⟨fair, quiet, m, fun k later => (all k later).trans events⟩

end LinterClient.Session
