import LinterClient.Proofs.Session.Deeds
import LinterClient.Proofs.Session.Inquiries

/-!
Replies to the requests of a server.

The reader takes requests, inquiries send replies and the writer writes them, in any order. In each of
these steps the books are balanced: the replies that were written, got lost, or are on their way are those
that are due.
-/

namespace LinterClient.Session

variable {σ : Type} {i : Nat}

/-- The reader and the writer of a connection, and its inquiries in the order in which they started,
with the messages that were read and the bytes that were written. -/
structure Exchange (σ : Type) where
  session : Session σ
  reader : Task σ (Option Job)
  writer : Task σ (Option Job)
  inquiries : List (Inquiry σ)
  read : List Json
  written : List UInt8

/-- A task of a connection goes on, or others do something. -/
inductive Exchange.Move (σ : Type) (i : Nat) where
  | read
  | write
  | answer (n : Nat)
  | outside (f : Session σ → Session σ) (keeps : ∀ s, Outside i s (f s))

def written (i : Nat) (s : Session σ) : List UInt8 :=
  ((s.connection? i).map (·.written)).getD []

section Moves

variable [Host σ] (handler : String → Json → Task σ (Except Protocol.Error Json))

namespace Exchange

def move (e : Exchange σ) : Move σ i → Exchange σ
  | .read =>
    if System.enabled (jobRules handler) e.session e.reader then
      let stop := (System.resume e.reader).advance e.session
      { e with
        session := stop.2.1
        reader := continued handler stop.1
        inquiries := e.inquiries ++ stop.2.2.filterMap (Inquiry.ofJob? handler)
        read := e.read ++ taken (finding? i e.reader e.session) }
    else e
  | .write =>
    if System.enabled (jobRules handler) e.session e.writer then
      let stop := (System.resume e.writer).advance e.session
      { e with
        session := stop.2.1
        writer := continued handler stop.1
        written := e.written ++ (Session.written i stop.2.1).drop (Session.written i e.session).length }
    else e
  | .answer n =>
    match e.inquiries[n]? with
    | none => e
    | some q =>
      if System.enabled (jobRules handler) e.session q.task then
        let stop := (System.resume q.task).advance e.session
        let handled := (System.resume q.handling).advance e.session
        { e with
          session := stop.2.1
          inquiries := e.inquiries.set n ⟨q.request, continued handler stop.1, handled.1.program⟩ }
      else e
  | .outside f _ => { e with session := f e.session }

def after (e : Exchange σ) (moves : List (Move σ i)) : Exchange σ :=
  moves.foldl (move handler) e

omit [Host σ] in
/-- A new connection. -/
def start (s : Session σ) (requestTimeout : Nat) (process : ServerProcess) : Exchange σ :=
  ⟨((connect requestTimeout process).advance s).2.1, Session.reader s.connections.length,
    Session.writer s.connections.length, [], [], []⟩

/-- No task of the connection can go on. -/
structure Settled (e : Exchange σ) : Prop where
  reader : e.reader.answer?.isNone → System.enabled (jobRules handler) e.session e.reader = false
  writer : e.writer.answer?.isNone → System.enabled (jobRules handler) e.session e.writer = false
  inquiries : ∀ q ∈ e.inquiries, q.task.answer?.isNone →
    System.enabled (jobRules handler) e.session q.task = false

end Exchange

end Moves

/-- The replies that were written, got lost, wait to be written or are about to be sent are those that
are due. -/
structure Balanced (i : Nat) (e : Exchange σ) (c : Connection) (stand : ReaderStand)
    (wrote lost : List Json) : Prop where
  found : e.session.connection? i = some c
  reader : e.reader = stand.task i
  writer : e.writer = Session.writer i ∨ e.writer = .done none ∧ c.writing = false
  asked : e.inquiries.map (·.request) = (requests e.read).filter (!·.registers)
  stands : ∀ q ∈ e.inquiries, q.Stands i
  written : e.written = wrote.flatMap Framing.encode
  unlost : c.writing = true → lost = []
  balance : (replies wrote ++ lost ++ replies (frames c.outbox) ++ stand.owed).Perm
    (acknowledgements e.read ++ e.inquiries.filterMap Inquiry.sent?)

section Steps

variable {e e' : Exchange σ} {c c' : Connection} {stand stand' : ReaderStand} {wrote lost : List Json}

theorem Balanced.start (s : Session σ) (requestTimeout : Nat) (process : ServerProcess) :
    Balanced s.connections.length (.start s requestTimeout process) (.new requestTimeout process) .idle
      [] [] where
  found := by
    show (s.connections ++ [_])[s.connections.length]? = _
    simp
  reader := rfl
  writer := .inl rfl
  asked := rfl
  stands := nofun
  written := rfl
  unlost _ := rfl
  balance := .refl _

/-- What is posted is accounted for. -/
theorem Balanced.post (balanced : Balanced i e c stand wrote lost) {due gone : List Json}
    (posts : Posts c c' due gone) (found : e'.session.connection? i = some c')
    (reader : e'.reader = stand'.task i) (writer : e'.writer = e.writer)
    (asked : e'.inquiries.map (·.request) = (requests e'.read).filter (!·.registers))
    (stands : ∀ q ∈ e'.inquiries, q.Stands i) (written : e'.written = e.written)
    (balance : (due ++ stand'.owed ++ (acknowledgements e.read ++ e.inquiries.filterMap Inquiry.sent?)).Perm
      (stand.owed ++ (acknowledgements e'.read ++ e'.inquiries.filterMap Inquiry.sent?))) :
    Balanced i e' c' stand' wrote (lost ++ gone) where
  found := found
  reader := reader
  writer := by rw [writer, posts.writing]; exact balanced.writer
  asked := asked
  stands := stands
  written := written.trans balanced.written
  unlost open_ := by
    rw [posts.writing] at open_
    rw [balanced.unlost open_, posts.unlost open_]
    rfl
  -- The order in which replies are written is of no account, so they are counted one by one.
  balance := by
    have before := balanced.balance
    have posted := posts.balance
    rw [List.perm_iff_count] at before posted balance ⊢
    intro f
    have before := before f
    have posted := posted f
    have balance := balance f
    simp only [List.count_append] at before posted balance ⊢
    omega

variable [Host σ] (handler : String → Json → Task σ (Except Protocol.Error Json))

theorem Balanced.outside (balanced : Balanced i e c stand wrote lost) {f : Session σ → Session σ}
    (keeps : ∀ s, Outside i s (f s)) :
    ∃ c', Balanced i (e.move handler (.outside f keeps)) c' stand wrote lost := by
  obtain ⟨c', found', posts⟩ := (keeps e.session).posts balanced.found
  have posted : Balanced i (e.move handler (.outside f keeps)) c' stand wrote (lost ++ []) :=
    balanced.post posts found' balanced.reader rfl balanced.asked balanced.stands rfl (.refl _)
  rw [List.append_nil] at posted
  exact ⟨c', posted⟩

theorem Balanced.read (discreet : Discreet i handler) (balanced : Balanced i e c stand wrote lost) :
    ∃ c' stand' lost', Balanced i (e.move handler (.read : Exchange.Move σ i)) c' stand' wrote lost' := by
  rw [Exchange.move]
  split
  rotate_left
  · exact ⟨c, stand, lost, balanced⟩
  obtain ⟨stand', stands', goes⟩ := reader_goes handler stand balanced.found
  obtain ⟨c', due, gone, found', posts, owed, jobs⟩ := goes.posts balanced.found
  rw [balanced.reader]
  generalize finding? i (stand.task i) e.session = finding at *
  have opens : ((System.resume (stand.task i)).advance e.session).2.2.filterMap (Inquiry.ofJob? handler) =
      ((requests (taken finding)).filter (!·.registers)).map (Inquiry.opened handler i) := by
    have each : (Inquiry.ofJob? handler ∘ fun r => r.job i) = some ∘ Inquiry.opened handler i := rfl
    rw [jobs, List.filterMap_map, each, List.filterMap_eq_map]
  dsimp only
  rw [opens]
  refine ⟨c', stand', lost ++ gone, balanced.post posts found' stands' rfl ?_ ?_ rfl ?_⟩
  · have same : Inquiry.request ∘ Inquiry.opened handler i = id := rfl
    rw [List.map_append, balanced.asked, requests_append, List.filter_append, List.map_map, same, List.map_id]
  · intro q member
    rcases List.mem_append.mp member with old | new
    · exact balanced.stands q old
    · obtain ⟨r, -, rfl⟩ := List.mem_map.mp new
      exact .handles (Inquiry.opened_handles handler i r) (discreet r.method r.params)
  · have unsent : (((requests (taken finding)).filter (!·.registers)).map (Inquiry.opened handler i)).filterMap
        Inquiry.sent? = [] := by
      rw [List.filterMap_map]
      exact List.filterMap_eq_nil_iff.mpr fun r _ => Inquiry.sent?_of_handles (Inquiry.opened_handles handler i r)
    rw [List.filterMap_append, unsent, List.append_nil, acknowledgements_append, owed, List.append_assoc,
      ← List.append_assoc _ _ (e.inquiries.filterMap _)]
    exact List.Perm.append_left _ (List.perm_append_comm.append_right _)

omit [Host σ] in
theorem written_of_found {s : Session σ} (found : s.connection? i = some c) : written i s = c.written := by
  rw [written, found]
  rfl

theorem writer_goes {s : Session σ} (found : s.connection? i = some c) :
    let stop := (System.resume (Session.writer i)).advance s
    continued handler stop.1 = (if c.writeNext.1 then Session.writer i else .done none) ∧
      stop.2.1 = changeConnection i (fun c => c.writeNext.2) s := by
  have takes : onConnection i false (·.writeNext) s =
      (c.writeNext.1, changeConnection i (fun c => c.writeNext.2) s) := onConnection_of_found false _ found
  dsimp [Session.writer, System.resume, Program.await, bind, Program.bind, Program.modifyGet, Program.advance]
  rw [takes]
  cases c.writeNext.1 <;> exact ⟨rfl, rfl⟩

omit [Host σ] in
/-- What is lost waits to be written when the writing ends. -/
theorem Balanced.stopWriting (balanced : Balanced i e c stand wrote lost)
    (found : e'.session.connection? i = some c.stopWriting) (writer : e'.writer = .done none)
    (same : e'.reader = e.reader ∧ e'.inquiries = e.inquiries ∧ e'.read = e.read)
    (written : e'.written = e.written) :
    Balanced i e' c.stopWriting stand wrote (lost ++ replies (frames c.outbox)) where
  found := found
  reader := same.1.trans balanced.reader
  writer := .inr ⟨writer, rfl⟩
  asked := by rw [same.2.1, same.2.2]; exact balanced.asked
  stands := by rw [same.2.1]; exact balanced.stands
  written := written.trans balanced.written
  unlost := nofun
  balance := by
    rw [same.2.1, same.2.2, ← List.append_assoc]
    exact (List.Perm.of_eq (List.append_nil _)).append_right _ |>.trans balanced.balance

omit [Host σ] in
theorem writeNext_cases (c : Connection) :
    c.writeNext = (true, c) ∨ c.writeNext = (false, c.stopWriting) ∨
      ∃ message rest, c.outbox = .frame message :: rest ∧
        c.writeNext = (true, { c with outbox := rest, written := c.written ++ Framing.encode message }) := by
  unfold Connection.writeNext
  split
  · exact .inl rfl
  · exact .inr (.inl rfl)
  · rename_i message rest waiting
    split
    · exact .inr (.inl rfl)
    · exact .inr (.inr ⟨message, rest, waiting, rfl⟩)

theorem Exchange.write_of_ended (ended : e.writer = .done none) :
    e.move handler (.write : Exchange.Move σ i) = e := by
  obtain ⟨session, reader, writer, inquiries, read, bytes⟩ := e
  subst ended
  have nothing : bytes ++ (Session.written i session).drop (Session.written i session).length = bytes := by
    rw [List.drop_length, List.append_nil]
  exact congrArg (Exchange.mk session reader (.done none) inquiries read) nothing

theorem Balanced.write (balanced : Balanced i e c stand wrote lost) :
    ∃ c' wrote' lost', Balanced i (e.move handler (.write : Exchange.Move σ i)) c' stand wrote' lost' := by
  rcases balanced.writer with idle | ⟨ended, -⟩
  rotate_left
  · rw [Exchange.write_of_ended handler ended]
    exact ⟨c, wrote, lost, balanced⟩
  rw [Exchange.move]
  split
  rotate_left
  · exact ⟨c, wrote, lost, balanced⟩
  have found := balanced.found
  obtain ⟨goesOn, changed⟩ := writer_goes handler found
  have found' := connection?_of_change (f := fun c => c.writeNext.2) found
  rw [idle]
  dsimp only
  rw [goesOn, changed, written_of_found found, written_of_found found']
  rcases writeNext_cases c with nothing | stops | ⟨message, rest, waiting, writes⟩
  · rw [nothing] at found' ⊢
    refine ⟨c, wrote, lost, { balanced with found := found', writer := .inl rfl, written := ?_ }⟩
    rw [List.drop_length, List.append_nil]
    exact balanced.written
  · rw [stops] at found' ⊢
    refine ⟨c.stopWriting, wrote, _, balanced.stopWriting found' rfl ⟨rfl, rfl, rfl⟩ ?_⟩
    exact (congrArg (e.written ++ ·) List.drop_length).trans (List.append_nil _)
  · rw [writes] at found' ⊢
    refine ⟨_, wrote ++ [message], lost, { balanced with
      found := found', writer := .inl rfl, written := ?_, balance := ?_ }⟩
    · rw [List.drop_left, balanced.written, List.flatMap_append, List.flatMap_singleton]
    · have before := balanced.balance
      have first : frames c.outbox = [message] ++ frames rest := by
        rw [waiting]
        rfl
      rw [first, replies_append, List.perm_iff_count] at before
      rw [replies_append, List.perm_iff_count]
      intro f
      have before := before f
      simp only [List.count_append] at before ⊢
      omega

omit [Host σ] in
theorem perm_filterMap_set {α β : Type} {f : α → Option β} {a b : α} {due : List β}
    (more : (f b).toList = (f a).toList ++ due) {l : List α} {n : Nat} (here : l[n]? = some a) :
    (due ++ l.filterMap f).Perm ((l.set n b).filterMap f) := by
  induction l generalizing n with
  | nil => cases here
  | cons head rest ih =>
    have first (x : α) : (x :: rest).filterMap f = (f x).toList ++ rest.filterMap f := by
      rw [List.filterMap_cons]
      cases f x <;> rfl
    cases n with
    | zero =>
      cases here
      rw [List.set_cons_zero, first, first, more, ← List.append_assoc]
      exact List.perm_append_comm.append_right _
    | succ n =>
      have tail := ih here
      rw [List.set_cons_succ, List.filterMap_cons, List.filterMap_cons]
      cases f head with
      | none => exact tail
      | some x => exact List.perm_middle.trans (tail.cons x)

theorem Balanced.answer (balanced : Balanced i e c stand wrote lost) (n : Nat) :
    ∃ c' lost', Balanced i (e.move handler (.answer n : Exchange.Move σ i)) c' stand wrote lost' := by
  rw [Exchange.move]
  split
  · exact ⟨c, lost, balanced⟩
  rename_i q here
  split
  rotate_left
  · exact ⟨c, lost, balanced⟩
  obtain ⟨c', due, gone, stands', found', posts, sent⟩ :=
    (balanced.stands q (List.mem_of_getElem? here)).goes handler balanced.found
  have posted := perm_filterMap_set sent here
  refine ⟨c', lost ++ gone, balanced.post posts found' balanced.reader rfl ?_ ?_ rfl ?_⟩
  · rw [← balanced.asked, List.map_set]
    obtain ⟨inside, rfl⟩ := List.getElem?_eq_some_iff.mp here
    have bound : n < (e.inquiries.map (·.request)).length := by simpa using inside
    have same : (e.inquiries.map (·.request))[n] = e.inquiries[n].request := List.getElem_map _
    rw [← same]
    exact List.set_getElem_self _
  · intro q' member
    rcases List.mem_or_eq_of_mem_set member with old | new
    · exact balanced.stands q' old
    · exact new ▸ stands'
  · rw [List.perm_iff_count] at posted ⊢
    intro f
    have posted := posted f
    simp only [List.count_append] at posted ⊢
    omega

theorem Balanced.move (discreet : Discreet i handler) (balanced : Balanced i e c stand wrote lost)
    (m : Exchange.Move σ i) :
    ∃ c' stand' wrote' lost', Balanced i (e.move handler m) c' stand' wrote' lost' := by
  cases m with
  | read =>
    obtain ⟨c', stand', lost', balanced⟩ := balanced.read handler discreet
    exact ⟨c', stand', wrote, lost', balanced⟩
  | write =>
    obtain ⟨c', wrote', lost', balanced⟩ := balanced.write handler
    exact ⟨c', stand, wrote', lost', balanced⟩
  | answer n =>
    obtain ⟨c', lost', balanced⟩ := balanced.answer handler n
    exact ⟨c', stand, wrote, lost', balanced⟩
  | outside f keeps =>
    obtain ⟨c', balanced⟩ := balanced.outside handler keeps
    exact ⟨c', stand, wrote, lost, balanced⟩

theorem Balanced.after (discreet : Discreet i handler) (balanced : Balanced i e c stand wrote lost)
    (moves : List (Exchange.Move σ i)) :
    ∃ c' stand' wrote' lost', Balanced i (e.after handler moves) c' stand' wrote' lost' := by
  induction moves generalizing e c stand wrote lost with
  | nil => exact ⟨c, stand, wrote, lost, balanced⟩
  | cons m rest ih =>
    obtain ⟨c', stand', wrote', lost', balanced⟩ := balanced.move handler discreet m
    exact ih balanced

end Steps

/-- What is true of the requests of a server and of the replies to them at any time. -/
structure Answered [Host σ] (handler : String → Json → Task σ (Except Protocol.Error Json)) (i : Nat)
    (e : Exchange σ) (c : Connection) : Prop where
  /-- A request is acknowledged, or an inquiry of its own runs the handler for it. -/
  asked : e.inquiries.map (·.request) = (requests e.read).filter (!·.registers)
  /-- What an inquiry sends is what its handler says. -/
  stands : ∀ q ∈ e.inquiries, q.Stands i
  /-- No reply is written without a request, or twice. None is lost while the writing goes on. -/
  accounted : ∃ (stand : ReaderStand) (wrote lost : List Json), e.reader = stand.task i ∧
    e.written = wrote.flatMap Framing.encode ∧ (c.writing = true → lost = []) ∧
      (replies wrote ++ lost ++ replies (frames c.outbox) ++ stand.owed).Perm
        (acknowledgements e.read ++ e.inquiries.filterMap Inquiry.sent?)
  /-- When nothing is left to be done, all replies are written. -/
  settled : c.writing = true → (∀ q ∈ e.inquiries, q.handling.answer?.isSome) → e.Settled handler →
    ∃ wrote, e.written = wrote.flatMap Framing.encode ∧
      (replies wrote).Perm (acknowledgements e.read ++ e.inquiries.filterMap Inquiry.reply?) ∧
        (replies wrote).length = (requests e.read).length

section Answered

variable [Host σ] (handler : String → Json → Task σ (Except Protocol.Error Json))
variable {e : Exchange σ} {c : Connection} {stand : ReaderStand} {wrote lost : List Json}

/-- A writer that has nothing to do wrote everything. -/
theorem Balanced.outbox_of_settled (balanced : Balanced i e c stand wrote lost) (open_ : c.writing = true)
    (settled : e.Settled handler) : c.outbox = [] := by
  rcases balanced.writer with idle | ⟨-, closed⟩
  · have waits : ((e.session.connection? i).all fun c => !c.outbox.isEmpty) = false := by
      have rests := settled.writer
      rw [idle] at rests
      exact rests rfl
    rw [balanced.found, Option.all_some] at waits
    simpa using waits
  · rw [open_] at closed
    cases closed

theorem enabled_of_room {s : Session σ} (found : s.connection? i = some c) (empty : c.outbox = [])
    {next : Task σ (Option Job)} : System.enabled (jobRules handler) s (.wait (.room i) next) = true := by
  show ((s.connection? i).all fun c => !c.writing || c.outbox.length < Connection.outboxCapacity) = true
  rw [found, Option.all_some, empty]
  simp [Connection.outboxCapacity]

theorem Balanced.owed_of_settled (balanced : Balanced i e c stand wrote lost) (open_ : c.writing = true)
    (settled : e.Settled handler) : stand.owed = [] := by
  have empty := balanced.outbox_of_settled handler open_ settled
  cases stand with
  | acknowledging id =>
    have rests := settled.reader
    rw [balanced.reader] at rests
    cases (enabled_of_room handler balanced.found empty).symm.trans (rests rfl)
  | _ => rfl

theorem Balanced.sent_of_settled (balanced : Balanced i e c stand wrote lost) (open_ : c.writing = true)
    (settled : e.Settled handler) {q : Inquiry σ} (member : q ∈ e.inquiries)
    (done : q.handling.answer?.isSome) : q.sent? = q.reply? := by
  have empty := balanced.outbox_of_settled handler open_ settled
  have rests := settled.inquiries q member
  cases balanced.stands q member with
  | replied ended =>
    rw [Inquiry.sent?, ended]
    rfl
  | handles whole =>
    cases handled : q.handling with
    | done r =>
      rw [whole, handled] at rests
      cases (enabled_of_room handler balanced.found empty).symm.trans (rests rfl)
    | _ =>
      rw [handled] at done
      cases done

theorem Balanced.settled (balanced : Balanced i e c stand wrote lost) (open_ : c.writing = true)
    (done : ∀ q ∈ e.inquiries, q.handling.answer?.isSome) (settled : e.Settled handler) :
    (replies wrote).Perm (acknowledgements e.read ++ e.inquiries.filterMap Inquiry.reply?) := by
  have sent : e.inquiries.filterMap Inquiry.sent? = e.inquiries.filterMap Inquiry.reply? :=
    List.filterMap_congr fun q member =>
      balanced.sent_of_settled handler open_ settled member (done q member)
  have nothing : replies (frames c.outbox) = [] := by
    rw [balanced.outbox_of_settled handler open_ settled]
    rfl
  have balance := balanced.balance
  rw [balanced.unlost open_, nothing, balanced.owed_of_settled handler open_ settled, sent, List.append_nil,
    List.append_nil, List.append_nil] at balance
  exact balance

omit [Host σ] in
/-- There is one reply for each request. -/
theorem Balanced.length_replies (balanced : Balanced i e c stand wrote lost)
    (done : ∀ q ∈ e.inquiries, q.handling.answer?.isSome) :
    (acknowledgements e.read ++ e.inquiries.filterMap Inquiry.reply?).length = (requests e.read).length := by
  have replied : (e.inquiries.filterMap Inquiry.reply?).length = e.inquiries.length := by
    rw [List.filterMap_length_eq_length]
    intro q member
    rw [Inquiry.reply?, Option.isSome_map]
    exact done q member
  have asked := congrArg List.length balanced.asked
  have kinds := List.length_eq_countP_add_countP (l := requests e.read) (·.registers)
  simp only [List.countP_eq_length_filter, Bool.not_eq_true, Bool.decide_eq_false] at kinds
  rw [List.length_map] at asked
  rw [List.length_append, acknowledgements, List.length_map, replied, asked, kinds]

theorem Balanced.answered (balanced : Balanced i e c stand wrote lost) : Answered handler i e c where
  asked := balanced.asked
  stands := balanced.stands
  accounted := ⟨stand, wrote, lost, balanced.reader, balanced.written, balanced.unlost, balanced.balance⟩
  settled open_ done settled := by
    have all := balanced.settled handler open_ done settled
    exact ⟨wrote, balanced.written, all, all.length_eq.trans (balanced.length_replies done)⟩

/-- Whatever a server sends and in whatever order its requests are handled: a reply is written for each
request, under its own id and with the outcome of the handler for its own method and parameters, and
nothing else is replied. -/
theorem requests_answered_once (s : Session σ) (requestTimeout : Nat) (process : ServerProcess)
    (discreet : Discreet s.connections.length handler)
    (moves : List (Exchange.Move σ s.connections.length)) :
    let i := s.connections.length
    let e := (Exchange.start s requestTimeout process).after handler moves
    (∃ c, e.session.connection? i = some c ∧ Answered handler i e c) ∧
      (∀ id r, Carries id r (Protocol.response id r)) ∧
        ∀ message r, Request.ofJson? message = some r ↔ message.get? "id" = some r.id ∧
          message.get? "method" = some (.str r.method) ∧ r.params = (message.get? "params").getD .null := by
  intro i e
  obtain ⟨c, stand, wrote, lost, balanced⟩ :=
    (Balanced.start s requestTimeout process).after handler discreet moves
  exact ⟨⟨c, balanced.found, balanced.answered handler⟩, response_carries,
    fun message r => Request.ofJson?_eq_some⟩

end Answered

def Exchange.Move.serves {σ : Type} {i : Nat} (frames : List Json) : Exchange.Move σ i :=
  .outside (changeConnection i fun c => { c with received := c.received ++ frames.flatMap Framing.encode })
    fun _ _ found => ⟨_, [], connection?_of_change found, rfl, (List.append_nil _).symm, rfl⟩

def asking (id : Json) (method : String) : Json :=
  .ofMembers [("id", id), ("method", .str method)]

def refusal (id : Json) (method : String) : Json :=
  Protocol.response id (.error (.methodNotFound method))

/-- Two requests have one id, and the second one is answered first. -/
theorem requests_answered_once_swapped :
    let s : Session MemoryStore := .new emptyStore .inMemory none (fun _ => .ok ()) 0
    let moves : List (Exchange.Move MemoryStore 0) :=
      [.serves [asking (.ofNat 7) "a", asking .null "client/registerCapability", asking (.ofNat 7) "b"],
        .read, .read, .read, .read, .answer 1, .answer 0, .answer 1, .answer 0, .write, .write, .write]
    let e := (Exchange.start s 1000 .none).after handle moves
    Discreet 0 (handle : String → Json → Task MemoryStore (Except Protocol.Error Json)) ∧ e.Settled handle ∧
      ∃ wrote, e.written = wrote.flatMap Framing.encode ∧ (replies wrote).Perm
        [acknowledgement .null, refusal (.ofNat 7) "a", refusal (.ofNat 7) "b"] := by
  intro s moves e
  have discreet : Discreet 0 (handle : String → Json → Task MemoryStore (Except Protocol.Error Json)) :=
    handle_discreet 0
  obtain ⟨⟨c, found, answered⟩, -, -⟩ := requests_answered_once handle s 1000 .none discreet moves
  obtain ⟨reader, writer, inquiries, done, known, due⟩ :
      (e.reader.answer?.isNone → System.enabled (jobRules handle) e.session e.reader = false) ∧
      (e.writer.answer?.isNone → System.enabled (jobRules handle) e.session e.writer = false) ∧
      (∀ q ∈ e.inquiries, q.task.answer?.isNone →
        System.enabled (jobRules handle) e.session q.task = false) ∧
      (∀ q ∈ e.inquiries, q.handling.answer?.isSome) ∧
      (e.session.connection? 0).map (·.writing) = some true ∧
      acknowledgements e.read ++ e.inquiries.filterMap Inquiry.reply? =
        [acknowledgement .null, refusal (.ofNat 7) "a", refusal (.ofNat 7) "b"] := by
    decide +kernel
  have open_ : c.writing = true := by
    have found : e.session.connection? 0 = some c := found
    rw [found] at known
    exact Option.some.inj known
  have settled : e.Settled handle := ⟨reader, writer, inquiries⟩
  obtain ⟨wrote, written, all, -⟩ := answered.settled open_ done settled
  exact ⟨discreet, settled, wrote, written, due ▸ all⟩

end LinterClient.Session
