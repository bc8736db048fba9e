import LinterClient.Proofs.Session.Reading
import LinterClient.Proofs.Session.Sparing

/-!
Requests of a server, and the tasks that reply to them.

The reader acknowledges a request itself, or starts an inquiry, which runs the handler and sends what it
says. In one go of either, the replies that become due are on their way, or lost if nothing is written any
more.
-/

namespace LinterClient.Session

open Protocol (Incoming)
open Program (Always)

variable {σ : Type} {i : Nat}

/-- A request of the server. -/
structure Request where
  id : Json
  method : String
  params : Json
deriving DecidableEq

namespace Request

def ofJson? (message : Json) : Option Request :=
  match Incoming.ofJson? message with
  | some (.request id method params) => some ⟨id, method, params⟩
  | _ => none

/-- Whether it is only acknowledged. -/
def registers (r : Request) : Bool :=
  isRegistration r.method

def job (i : Nat) (r : Request) : Job :=
  .answer i r.id r.method r.params

end Request

def requests (messages : List Json) : List Request :=
  messages.filterMap Request.ofJson?

def acknowledgement (id : Json) : Json :=
  Protocol.response id (.ok .null)

def acknowledgements (messages : List Json) : List Json :=
  ((requests messages).filter (·.registers)).map fun r => acknowledgement r.id

/-- The frames that name no method. -/
def replies (frames : List Json) : List Json :=
  frames.filter fun f => (f.get? "method").isNone

/-- Others may send, but no replies, and they do not end the writing. -/
def Outside (i : Nat) (s s' : Session σ) : Prop :=
  ∀ c, s.connection? i = some c → ∃ c' more, s'.connection? i = some c' ∧ c'.writing = c.writing ∧
    c'.outbox = c.outbox ++ more ∧ replies (frames more) = []

/-- A request that is handled: its task, and what is left of the handler that runs in it. -/
structure Inquiry (σ : Type) where
  request : Request
  task : Task σ (Option Job)
  handling : Task σ (Except Protocol.Error Json)

namespace Inquiry

/-- The reply, once the handler is done. -/
def reply? (q : Inquiry σ) : Option Json :=
  q.handling.answer?.map (Protocol.response q.request.id)

/-- The reply, once it is sent. -/
def sent? (q : Inquiry σ) : Option Json :=
  q.task.answer?.bind fun _ => q.reply?

end Inquiry

/-- The message that a reader takes. -/
def taken : Option Finding → List Json
  | some (.message value) => [value]
  | _ => []

section Frames

/-- A reply carries the id of its request and an outcome: either a result or an error. -/
structure Carries (id : Json) (r : Except Protocol.Error Json) (frame : Json) : Prop where
  id : frame.get? "id" = some id
  result : frame.get? "result" = r.toOption
  error : frame.get? "error" = match r with
    | .ok _ => none
    | .error e => some (.ofMembers [("code", .ofInt e.code), ("message", .str e.message)])
  method : frame.get? "method" = none

theorem response_carries (id : Json) (r : Except Protocol.Error Json) :
    Carries id r (Protocol.response id r) := by
  cases r with
  | ok result =>
    constructor
    all_goals exact Json.get?_ofMembers _ _
  | error e =>
    constructor
    all_goals exact Json.get?_ofMembers _ _

theorem bind_asString? {v : Option Json} {text : String} :
    v.bind Json.asString? = some text ↔ v = some (.str text) := by
  cases v with
  | none => simp
  | some v => cases v <;> simp [Json.asString?]

/-- A message is a request if it has an id and names a method, whatever else it holds. -/
theorem Request.ofJson?_eq_some {message : Json} {r : Request} :
    Request.ofJson? message = some r ↔ message.get? "id" = some r.id ∧
      message.get? "method" = some (.str r.method) ∧ r.params = (message.get? "params").getD .null := by
  obtain ⟨id, method, params⟩ := r
  cases message with
  | obj m =>
    rw [← bind_asString?]
    show Request.ofJson? (.obj m) = _ ↔ Json.Members.get? m "id" = _ ∧
      (Json.Members.get? m "method").bind Json.asString? = _ ∧ _ = (Json.Members.get? m "params").getD .null
    unfold Request.ofJson? Incoming.ofJson?
    dsimp only
    generalize Json.Members.get? m "id" = own
    generalize (Json.Members.get? m "method").bind Json.asString? = name
    cases own with
    | none => cases name <;> simp
    | some own =>
      cases name with
      | none => grind
      | some name => simp [eq_comm]
  | _ => simp [Request.ofJson?, Incoming.ofJson?, Json.get?]

end Frames

theorem requests_append (messages more : List Json) :
    requests (messages ++ more) = requests messages ++ requests more :=
  List.filterMap_append

theorem acknowledgements_append (messages more : List Json) :
    acknowledgements (messages ++ more) = acknowledgements messages ++ acknowledgements more := by
  rw [acknowledgements, requests_append, List.filter_append, List.map_append]
  rfl

section Outside

variable {s s' s'' : Session σ} {c : Connection}

theorem replies_append (frames more : List Json) : replies (frames ++ more) = replies frames ++ replies more :=
  List.filter_append _ _

theorem replies_response (id : Json) (r : Except Protocol.Error Json) :
    replies [Protocol.response id r] = [Protocol.response id r] := by
  rw [replies, List.filter_singleton, (response_carries id r).method]
  rfl

theorem Outside.of_same (same : s'.connection? i = s.connection? i) : Outside i s s' := by
  intro c found
  exact ⟨c, [], same.trans found, rfl, (List.append_nil _).symm, rfl⟩

theorem Outside.refl (s : Session σ) : Outside i s s :=
  .of_same rfl

theorem Outside.trans (first : Outside i s s') (next : Outside i s' s'') : Outside i s s'' := by
  intro c found
  obtain ⟨c', more, found', writing, outbox, silent⟩ := first c found
  obtain ⟨c'', more', found'', writing', outbox', silent'⟩ := next c' found'
  refine ⟨c'', more ++ more', found'', writing'.trans writing, ?_, ?_⟩
  · rw [outbox', outbox, List.append_assoc]
  · rw [frames_append, replies_append, silent, silent']
    rfl

theorem Outside.of_spares (spares : Spares s s') : Outside i s s' := by
  apply Outside.of_same
  rw [connection?, connection?, spares.connections]

/-- Replies that become due are on their way, or lost where nothing is written any more. -/
structure Posts (c c' : Connection) (due lost : List Json) : Prop where
  writing : c'.writing = c.writing
  unlost : c.writing = true → lost = []
  balance : (lost ++ replies (frames c'.outbox)).Perm (replies (frames c.outbox) ++ due)

theorem Posts.of_same {c' : Connection} (writing : c'.writing = c.writing) (outbox : c'.outbox = c.outbox) :
    Posts c c' [] [] where
  writing := writing
  unlost _ := rfl
  balance := by rw [outbox, List.append_nil, List.nil_append]

theorem Outside.posts (outside : Outside i s s') (found : s.connection? i = some c) :
    ∃ c', s'.connection? i = some c' ∧ Posts c c' [] [] := by
  obtain ⟨c', more, found', writing, outbox, silent⟩ := outside c found
  refine ⟨c', found', writing, fun _ => rfl, ?_⟩
  rw [outbox, frames_append, replies_append, silent]
  exact .refl _

theorem posts_response (found : s.connection? i = some c) (id : Json) (r : Except Protocol.Error Json) :
    ∃ c' lost, (enqueued i (.frame (Protocol.response id r)) s).connection? i = some c' ∧
      Posts c c' [Protocol.response id r] lost := by
  refine ⟨_, if c.writing then [] else [Protocol.response id r], connection?_of_change found, ?_⟩
  cases writing : c.writing with
  | true =>
    have taken : (c.enqueue (.frame (Protocol.response id r))).2 =
        { c with outbox := c.outbox ++ [.frame (Protocol.response id r)] } := by
      rw [Connection.enqueue, if_pos writing]
    rw [taken]
    have sent : replies (frames [.frame (Protocol.response id r)]) = [Protocol.response id r] :=
      replies_response id r
    refine ⟨rfl, fun _ => rfl, ?_⟩
    rw [frames_append, replies_append, sent]
    exact .refl _
  | false =>
    have refused : (c.enqueue (.frame (Protocol.response id r))).2 = c := by
      simp [Connection.enqueue, writing]
    rw [refused]
    refine ⟨rfl, fun open_ => ?_, List.perm_append_comm⟩
    rw [writing] at open_
    cases open_

end Outside

/-- The reply that a reader is about to send. -/
def ReaderStand.owed : ReaderStand → List Json
  | .acknowledging id => [acknowledgement id]
  | _ => []

/-- What is left of an inquiry when its handler is done. -/
def sendReply (i : Nat) (id : Json) (r : Except Protocol.Error Json) : Task σ (Option Job) := do
  let _ ← send i (.frame (Protocol.response id r))
  pure none

/-- An inquiry goes on with what its handler says, or it has sent it. -/
inductive Inquiry.Stands (i : Nat) (q : Inquiry σ) : Prop where
  | handles : q.task = (do sendReply i q.request.id (← q.handling)) →
    Always (Outside i) Job.IsAnnouncement (fun _ => True) q.handling → q.Stands i
  | replied {r : Except Protocol.Error Json} : q.task = .done none → q.handling = .done r → q.Stands i

/-- A handler may do anything but reply itself, end the writing, or start other jobs than announcements. -/
def Discreet (i : Nat) (handler : String → Json → Task σ (Except Protocol.Error Json)) : Prop :=
  ∀ method params, Always (Outside i) Job.IsAnnouncement (fun _ => True) (handler method params)

section Goes

variable {s s' : Session σ} {c : Connection} {stand stand' : ReaderStand} {jobs : List Job}

theorem Handles.posts {value : Json} (handles : Handles i value s stand s' jobs)
    (found : s.connection? i = some c) :
    (∃ c', s'.connection? i = some c' ∧ Posts c c' [] []) ∧
      stand.owed = acknowledgements [value] ∧
        jobs = ((requests [value]).filter (!·.registers)).map (·.job i) := by
  have none_ (other : Request.ofJson? value = none) :
      acknowledgements [value] = [] ∧ ((requests [value]).filter (!·.registers)).map (·.job i) = [] := by
    simp [acknowledgements, requests, other]
  have unread {stand : ReaderStand} (owes : stand.owed = []) (other : Request.ofJson? value = none) :
      stand.owed = acknowledgements [value] ∧
        [] = ((requests [value]).filter (!·.registers)).map (·.job i) := by
    rw [(none_ other).1, (none_ other).2, owes]
    exact ⟨rfl, rfl⟩
  cases handles with
  | ignores parsed =>
    exact ⟨⟨c, found, .of_same rfl rfl⟩, unread rfl (by rw [Request.ofJson?, parsed])⟩
  | @delivers id body parsed =>
    refine ⟨⟨_, connection?_of_change found, ?_⟩, unread rfl (by rw [Request.ofJson?, parsed])⟩
    unfold Connection.deliver
    split
    · exact .of_same rfl rfl
    · exact .of_same rfl rfl
  | logs parsed connections =>
    refine ⟨⟨c, ?_, .of_same rfl rfl⟩, unread rfl (by rw [Request.ofJson?, parsed])⟩
    rw [connection?, connections]
    exact found
  | notes parsed =>
    exact ⟨⟨c, found, .of_same rfl rfl⟩, unread rfl (by rw [Request.ofJson?, parsed])⟩
  | @acknowledges id method params parsed registers =>
    have is : requests [value] = [⟨id, method, params⟩] := by
      simp [requests, Request.ofJson?, parsed]
    have kind : Request.registers ⟨id, method, params⟩ = true := registers
    refine ⟨⟨c, found, .of_same rfl rfl⟩, ?_, ?_⟩
    · simp [acknowledgements, is, kind, ReaderStand.owed]
    · simp [is, kind]
  | @asks id method params parsed registers =>
    have is : requests [value] = [⟨id, method, params⟩] := by
      simp [requests, Request.ofJson?, parsed]
    have kind : Request.registers ⟨id, method, params⟩ = false := registers
    refine ⟨⟨c, found, .of_same rfl rfl⟩, ?_, ?_⟩
    · simp [acknowledgements, is, kind, ReaderStand.owed]
    · simp [is, kind, Request.job]

/-- What a reader owes is what it reads and has not sent. -/
theorem ReaderGoes.posts {finding : Option Finding} (goes : ReaderGoes i s c stand finding stand' s' jobs)
    (found : s.connection? i = some c) :
    ∃ c' due lost, s'.connection? i = some c' ∧ Posts c c' due lost ∧
      due ++ stand'.owed = stand.owed ++ acknowledgements (taken finding) ∧
        jobs = ((requests (taken finding)).filter (!·.registers)).map (·.job i) := by
  cases goes with
  | takes next handles =>
    obtain ⟨⟨c', found', posts⟩, owed, jobs⟩ := handles.posts (connection?_of_change found)
    exact ⟨c', [], [], found', ⟨posts.writing, posts.unlost, posts.balance⟩, owed, jobs⟩
  | rests => exact ⟨c, [], [], found, .of_same rfl rfl, rfl, rfl⟩
  | quits => exact ⟨c, [], [], found, .of_same rfl rfl, rfl, rfl⟩
  | remains => exact ⟨c, [], [], found, .of_same rfl rfl, rfl, rfl⟩
  | stops => exact ⟨_, [], [], connection?_of_change found, .of_same rfl rfl, rfl, rfl⟩
  | @acknowledges id =>
    obtain ⟨c', lost, found', posts⟩ := posts_response found id (.ok .null)
    exact ⟨c', _, lost, found', posts, rfl, rfl⟩
  | notes noted =>
    obtain ⟨events, found'⟩ := connection?_of_noted noted found
    exact ⟨_, [], [], found', .of_same rfl rfl, rfl, rfl⟩
  | reports noted =>
    obtain ⟨events, found'⟩ := connection?_of_noted noted found
    exact ⟨_, [], [], connection?_of_change found', .of_same rfl rfl, rfl, rfl⟩

/-- An inquiry that goes on with its handler has sent nothing. -/
theorem Inquiry.sent?_of_handles {q : Inquiry σ}
    (whole : q.task = (do sendReply i q.request.id (← q.handling))) : q.sent? = none := by
  have unended : q.task.answer? = none := by
    rw [whole]
    cases q.handling <;> rfl
  rw [sent?, unended, Option.bind_none]

variable [Host σ]

theorem handle_discreet (i : Nat) :
    Discreet i (handle : String → Json → Task σ (Except Protocol.Error Json)) :=
  fun method params s => (Sparing.handle method params s).allow (fun _ _ => .of_spares) fun _ => id

variable (handler : String → Json → Task σ (Except Protocol.Error Json))

def Inquiry.ofJob? : Job → Option (Inquiry σ)
  | .answer i id method params =>
    some ⟨⟨id, method, params⟩, runJob handler (.answer i id method params), handler method params⟩
  | _ => none

/-- An inquiry that did not start. -/
def Inquiry.opened (i : Nat) (r : Request) : Inquiry σ :=
  ⟨r, runJob handler (r.job i), handler r.method r.params⟩

theorem Inquiry.opened_handles (i : Nat) (r : Request) :
    (Inquiry.opened handler i r).task = (do sendReply i r.id (← handler r.method r.params)) := by
  show ((handler r.method r.params >>= _) >>= _ : Task σ (Option Job)) = _
  rw [Program.bind_assoc]
  rfl

theorem Inquiry.Stands.goes {q : Inquiry σ} (stands : q.Stands i) (found : s.connection? i = some c) :
    let stop := (System.resume q.task).advance s
    let q' : Inquiry σ :=
      ⟨q.request, continued handler stop.1, ((System.resume q.handling).advance s).1.program⟩
    ∃ c' due lost, q'.Stands i ∧ stop.2.1.connection? i = some c' ∧ Posts c c' due lost ∧
      q'.sent?.toList = q.sent?.toList ++ due := by
  obtain ⟨⟨id, method, params⟩, task, handling⟩ := q
  cases stands with
  | replied ended done =>
    subst ended done
    exact ⟨c, [], [], .replied rfl rfl, found, .of_same rfl rfl, rfl⟩
  | handles whole always =>
    have unsent := Inquiry.sent?_of_handles whole
    dsimp only at whole always ⊢
    subst whole
    rw [unsent]
    by_cases done : ∃ r, handling = .done r
    · obtain ⟨r, rfl⟩ := done
      obtain ⟨c', lost, found', posts⟩ := posts_response found id r
      have sent : (onConnection i false (·.enqueue (.frame (Protocol.response id r))) s).2 =
          enqueued i (.frame (Protocol.response id r)) s := onConnection_snd _ _
      refine ⟨c', [Protocol.response id r], lost, .replied rfl rfl, ?_, posts, rfl⟩
      rw [← sent] at found'
      exact found'
    -- The handler is the first part of its inquiry, so both go up to the same wait.
    · have unfinished : ∀ r, handling ≠ .done r := fun r is => done ⟨r, is⟩
      rw [Program.resume_bind _ unfinished, Program.advance_bind]
      obtain ⟨outside, -, rest⟩ := (always.resume s).advance .refl .trans
      obtain ⟨c', found', posts⟩ := outside.posts found
      generalize (System.resume handling).advance s = first at *
      obtain ⟨pause, s', jobs⟩ := first
      cases pause with
      | done r =>
        exact ⟨c', [], [], .handles rfl fun _ => trivial, found', posts, rfl⟩
      | waiting on next =>
        exact ⟨c', [], [], .handles rfl fun _ => rest, found', posts, rfl⟩

end Goes

end LinterClient.Session
