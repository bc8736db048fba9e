import LinterClient.Proofs.Json.Members
import LinterClient.Proofs.Task.Chronicle
import LinterClient.Session.Serving

/-!
What the client's own task hands to its connections.

Notes are taken of every frame that is put in an outbox, with the marks of that moment, and of every
frame that is refused. Most of what the task does tells no server of documents, and leaves the documents
alone; that is shown once for each of its parts.
-/

namespace LinterClient.Session

/-- The URL of the document that a message is about, as text. -/
def documentUri? (message : Json) : Option String :=
  (((message.get? "params").bind (·.get? "textDocument")).bind (·.get? "uri")).bind (·.asString?)

/-- What a server is told by a message: whether a document was opened or closed, and which. -/
def told? (message : Json) : Option (Bool × String) :=
  match (message.get? "method").bind (·.asString?) with
  | some "textDocument/didOpen" => (documentUri? message).map (true, ·)
  | some "textDocument/didClose" => (documentUri? message).map (false, ·)
  | _ => none

def openedFrame (d : OpenDocument) : Json :=
  Protocol.notification "textDocument/didOpen"
    (some (Protocol.didOpenParams d.uri d.document.language d.version d.text))

def closedFrame (uri : Url) : Json :=
  Protocol.notification "textDocument/didClose" (some (Protocol.didCloseParams uri))

/-- What is noted of the client's own task. -/
inductive Entry where
  /-- A frame was put in the outbox of a connection; these URLs were marked. -/
  | handed (connection : Nat) (message : Json) (marked : List Url)
  /-- A connection took something no longer. -/
  | refused (connection : Nat)

namespace Entry

def connection : Entry → Nat
  | handed i _ _ | refused i => i

def tells : Entry → Bool
  | handed _ m _ => (told? m).isSome
  | refused _ => false

/-- What the server of a connection is told of a URL. -/
def told? (i : Nat) (uri : String) : Entry → Option Bool
  | handed j m _ => (Session.told? m).bind fun e => if j = i ∧ e.2 = uri then some e.1 else none
  | refused _ => none

/-- A connection that refused something takes nothing later. -/
def Ends (e later : Entry) : Prop :=
  ∀ i m marked, e = refused i → later ≠ handed i m marked

end Entry

/-- What the server of a connection was told of a URL: where it was opened, and where closed. -/
def told (i : Nat) (uri : String) (journal : List Entry) : List Bool :=
  journal.filterMap (Entry.told? i uri)

theorem told_append (i : Nat) (uri : String) (journal more : List Entry) :
    told i uri (journal ++ more) = told i uri journal ++ told i uri more :=
  List.filterMap_append

theorem told_filter (i : Nat) (uri : String) (journal : List Entry) :
    told i uri (journal.filter Entry.tells) = told i uri journal := by
  rw [told, told, List.filterMap_filter]
  congr 1
  funext e
  cases e with
  | refused => rfl
  | handed j m marked =>
    cases telling : Session.told? m <;> simp [Entry.tells, Entry.told?, telling]

section Messages

theorem method?_notification (method : String) (params : Option Json) :
    (Protocol.notification method params).get? "method" = some (.str method) := by
  cases params with
  | none => exact Json.get?_ofMembers _ _
  | some p => exact Json.get?_ofMembers _ _

theorem params?_notification (method : String) (params : Json) :
    (Protocol.notification method (some params)).get? "params" = some params :=
  Json.get?_ofMembers _ _

theorem method?_request (id : Nat) (method : String) (params : Option Json) :
    (Protocol.request id method params).get? "method" = some (.str method) := by
  cases params with
  | none => exact Json.get?_ofMembers _ _
  | some p => exact Json.get?_ofMembers _ _

theorem told?_of_method {message : Json} {method : String}
    (named : message.get? "method" = some (.str method))
    (other : method ≠ "textDocument/didOpen" ∧ method ≠ "textDocument/didClose") :
    told? message = none := by
  unfold told?
  rw [named]
  dsimp only [Option.bind_some, Json.asString?]
  split
  · rename_i same
    exact absurd (Option.some_inj.mp same) other.1
  · rename_i same
    exact absurd (Option.some_inj.mp same) other.2
  · rfl

theorem told?_openedFrame (d : OpenDocument) : told? (openedFrame d) = some (true, d.uri.text) := by
  have uri : documentUri? (openedFrame d) = some d.uri.text := by
    have document : (Protocol.didOpenParams d.uri d.document.language d.version d.text).get?
        "textDocument" = some (.ofMembers [("uri", .str d.uri.text), ("languageId",
          .str d.document.language), ("version", .ofInt d.version), ("text", .str d.text)]) :=
      Json.get?_ofMembers _ _
    rw [documentUri?, openedFrame, params?_notification, Option.bind_some, document, Option.bind_some]
    rw [Json.get?_ofMembers]
    rfl
  rw [told?, openedFrame, method?_notification, ← openedFrame, uri]
  rfl

theorem told?_closedFrame (uri : Url) : told? (closedFrame uri) = some (false, uri.text) := by
  have text : documentUri? (closedFrame uri) = some uri.text := by
    have document : (Protocol.didCloseParams uri).get? "textDocument" =
        some (.ofMembers [("uri", .str uri.text)]) :=
      Json.get?_ofMembers _ _
    rw [documentUri?, closedFrame, params?_notification, Option.bind_some, document, Option.bind_some]
    rw [Json.get?_ofMembers]
    rfl
  rw [told?, closedFrame, method?_notification, ← closedFrame, text]
  rfl

end Messages

variable {σ : Type}

def outbox (s : Session σ) (i : Nat) : List Outgoing :=
  ((s.connection? i).map (·.outbox)).getD []

def telling? : Outgoing → Option (Bool × String)
  | .frame m => told? m
  | .stop => none

/-- What the frames that wait for a connection tell of documents. -/
def tellings (s : Session σ) (i : Nat) : List (Bool × String) :=
  (outbox s i).filterMap telling?

/-- The frames that were put in the outbox of a connection. -/
def handed (s s' : Session σ) (i : Nat) : List Entry :=
  ((outbox s' i).drop (outbox s i).length).filterMap fun
    | .frame m => some (.handed i m s.documents.synced)
    | .stop => none

/-- The notes of the client's own task. What a task sends it puts in the outbox as soon as there is
room. -/
def watch : Watch (Session σ) Wait Entry where
  changed s s' := (List.range s'.connections.length).flatMap (handed s s')
  woke on s :=
    match on with
    | .room i => if (s.connection? i).any (!·.writing) then [.refused i] else []
    | _ => []

abbrev Life (σ : Type) := Chronicle (Session σ) Entry

def refile (documents : Documents) (l : Life σ) : Life σ :=
  ⟨{ l.state with documents }, l.journal⟩

/-- What happens to a session beside the client's own task: documents, failed probes and what the client
keeps are left alone, no connection comes or takes frames again, and no server is told of documents. -/
structure Beside (s s' : Session σ) : Prop where
  documents : s'.documents = s.documents
  failures : s'.failures = s.failures
  client : s'.client = s.client
  length : s'.connections.length = s.connections.length
  closed : ∀ i, isConnected i s' = true → isConnected i s = true
  silent : ∀ i, tellings s' i <:+ tellings s i

/-- What is the client's own is the same. -/
structure Spares (s s' : Session σ) : Prop where
  connections : s'.connections = s.connections
  client : s'.client = s.client
  documents : s'.documents = s.documents
  failures : s'.failures = s.failures

/-- What is relied on in a wait, where something is known of every store that is found. -/
def amidst (known : σ → Prop) (on : Wait) (s s' : Session σ) : Prop :=
  Beside s s' ∧ ready on s' = true ∧ known s'.store

/-- What a note says of the time in which it was taken. -/
def Entry.Within (s s' : Session σ) : Entry → Prop
  | .handed i _ _ => i < s'.connections.length ∧ (i < s.connections.length → isConnected i s = true)
  | .refused i => i < s'.connections.length ∧ isConnected i s' = false

/-- Time went on: connections only come and close, and notes are added. -/
structure Continues (l l' : Life σ) : Prop where
  length : l.state.connections.length ≤ l'.state.connections.length
  closed : ∀ i < l.state.connections.length, isConnected i l'.state = true → isConnected i l.state = true
  journal : ∃ more, l'.journal = l.journal ++ more ∧
    (∀ e ∈ more, e.Within l.state l'.state) ∧ more.Pairwise Entry.Ends

/-- Time went on, and then there are these documents; servers were told of them what is noted here. -/
structure Brings (known : σ → Prop) (documents : Documents) (told : List Entry) (l l' : Life σ) : Prop
    extends Continues l l' where
  server : l'.state.client.server = l.state.client.server
  documents : l'.state.documents = documents
  failures : l'.state.failures = l.state.failures
  store : known l.state.store → known l'.state.store
  tells : l'.journal.filter Entry.tells = l.journal.filter Entry.tells ++ told

/-- No server was told of a document. -/
abbrev Tacit (known : σ → Prop) (l l' : Life σ) : Prop :=
  Brings known l.state.documents [] l l'

/-- Nothing that is noted happened to the connections. -/
structure Still (s s' : Session σ) : Prop where
  length : s'.connections.length = s.connections.length
  shape : ∀ i, (s'.connection? i).map (fun c => (c.outbox, c.writing)) =
    (s.connection? i).map fun c => (c.outbox, c.writing)

/-- Nothing happened that matters to documents. -/
structure Idle (s s' : Session σ) : Prop extends Still s s' where
  server : s'.client.server = s.client.server
  documents : s'.documents = s.documents
  failures : s'.failures = s.failures
  store : s'.store = s.store

section Relations

variable {known : σ → Prop} {s s' s'' : Session σ} {l l' l'' : Life σ} {e : Entry} {i : Nat}

theorem Entry.Within.mono (within : e.Within s s')
    (length : s'.connections.length ≤ s''.connections.length)
    (closed : ∀ i < s'.connections.length, isConnected i s'' = true → isConnected i s' = true) :
    e.Within s s'' := by
  cases e with
  | handed i m marked => exact ⟨Nat.lt_of_lt_of_le within.1 length, within.2⟩
  | refused i =>
    refine ⟨Nat.lt_of_lt_of_le within.1 length, Bool.eq_false_iff.mpr fun open_ => ?_⟩
    exact Bool.eq_false_iff.mp within.2 (closed i within.1 open_)

theorem Entry.Within.anti (within : e.Within s' s'')
    (length : s.connections.length ≤ s'.connections.length)
    (closed : ∀ i < s.connections.length, isConnected i s' = true → isConnected i s = true) :
    e.Within s s'' := by
  cases e with
  | handed i m marked => exact ⟨within.1, fun old => closed i old (within.2 (Nat.lt_of_lt_of_le old length))⟩
  | refused i => exact within

theorem Continues.refl (l : Life σ) : Continues l l :=
  ⟨Nat.le_refl _, fun _ _ => id, [], (List.append_nil _).symm, nofun, .nil⟩

theorem Continues.trans (first : Continues l l') (next : Continues l' l'') : Continues l l'' where
  length := Nat.le_trans first.length next.length
  closed i old := first.closed i old ∘ next.closed i (Nat.lt_of_lt_of_le old first.length)
  journal := by
    obtain ⟨more, journal, within, ends⟩ := first.journal
    obtain ⟨more', journal', within', ends'⟩ := next.journal
    refine ⟨more ++ more', by rw [journal', journal, List.append_assoc], ?_, ?_⟩
    · intro e member
      -- Connections never open again, so a note is as true of the longer time as of its own.
      rcases List.mem_append.mp member with early | late
      · exact (within e early).mono next.length next.closed
      · exact (within' e late).anti first.length first.closed
    · refine List.pairwise_append.mpr ⟨ends, ends', fun e early e' late i m marked refused => ?_⟩
      rintro rfl
      subst refused
      -- The later frame says that the connection was open in between, the earlier refusal that it was not.
      obtain ⟨exists_, gone⟩ := within _ early
      rw [(within' _ late).2 exists_] at gone
      cases gone

theorem Tacit.refl (l : Life σ) : Tacit known l l :=
  ⟨.refl l, rfl, rfl, rfl, id, (List.append_nil _).symm⟩

theorem Brings.trans {documents documents' : Documents} {told told' : List Entry}
    (first : Brings known documents told l l') (next : Brings known documents' told' l' l'') :
    Brings known documents' (told ++ told') l l'' where
  toContinues := first.toContinues.trans next.toContinues
  server := next.server.trans first.server
  documents := next.documents
  failures := next.failures.trans first.failures
  store := next.store ∘ first.store
  tells := by rw [next.tells, first.tells, List.append_assoc]

theorem Brings.quiet {documents : Documents} {told : List Entry}
    (first : Brings known documents told l l') (next : Tacit known l' l'') :
    Brings known documents told l l'' := by
  have both := first.trans next
  rwa [first.documents, List.append_nil] at both

theorem Tacit.trans (first : Tacit known l l') (next : Tacit known l' l'') : Tacit known l l'' :=
  first.quiet next

theorem Still.of_connections (same : s'.connections = s.connections) : Still s s' := by
  constructor <;> simp [connection?, same]

theorem Still.outbox (still : Still s s') (i : Nat) :
    Session.outbox s' i = Session.outbox s i := by
  have same := congrArg (Option.map Prod.fst) (still.shape i)
  simp only [Option.map_map] at same
  exact congrArg (·.getD []) same

theorem Still.connected (still : Still s s') (i : Nat) : isConnected i s' = isConnected i s := by
  have same := congrArg (Option.any Prod.snd) (still.shape i)
  rwa [Option.any_map, Option.any_map] at same

theorem Beside.of_still (still : Still s s') (documents : s'.documents = s.documents)
    (failures : s'.failures = s.failures) (client : s'.client = s.client) : Beside s s' where
  documents := documents
  failures := failures
  client := client
  length := still.length
  closed i := by
    rw [still.connected]
    exact id
  silent i := by
    rw [tellings, still.outbox]
    exact List.suffix_refl _

theorem Beside.of_spares (spares : Spares s s') : Beside s s' :=
  .of_still (.of_connections spares.connections) spares.documents spares.failures spares.client

theorem Beside.trans (first : Beside s s') (next : Beside s' s'') : Beside s s'' where
  documents := next.documents.trans first.documents
  failures := next.failures.trans first.failures
  client := next.client.trans first.client
  length := next.length.trans first.length
  closed i := first.closed i ∘ next.closed i
  silent i := (next.silent i).trans (first.silent i)

theorem Beside.refl (s : Session σ) : Beside s s :=
  .of_still (.of_connections rfl) rfl rfl rfl

theorem changed_of_outbox (same : ∀ i, outbox s' i = outbox s i) : watch.changed s s' = [] := by
  refine List.flatMap_eq_nil_iff.mpr fun i _ => ?_
  rw [handed, same, List.drop_length]
  rfl

theorem changed_of_still (still : Still s s') : watch.changed s s' = [] :=
  changed_of_outbox still.outbox

theorem Continues.of_still (still : Still l.state s) : Continues l (l.change watch s) where
  length := Nat.le_of_eq still.length.symm
  closed i _ := by
    rw [← still.connected i]
    exact id
  journal := ⟨[], by simp [Chronicle.change, changed_of_still still]⟩

theorem change_of_still (still : Still l.state s) : l.change watch s = ⟨s, l.journal⟩ := by
  rw [Chronicle.change, changed_of_still still, List.append_nil]

theorem change_of_connections (same : s.connections = l.state.connections) :
    l.change watch s = ⟨s, l.journal⟩ :=
  change_of_still (.of_connections same)

theorem Continues.of_connections (same : s.connections = l.state.connections) :
    Continues l ⟨s, l.journal⟩ := by
  rw [← change_of_connections same]
  exact .of_still (.of_connections same)

theorem change_documents (documents : Documents) :
    l.change watch { l.state with documents } = refile documents l :=
  change_of_still (.of_connections rfl)

theorem brings_refile (documents : Documents) : Brings known documents [] l (refile documents l) :=
  ⟨.of_connections rfl, rfl, rfl, rfl, id, (List.append_nil _).symm⟩

theorem Brings.weaken {documents : Documents} {told : List Entry}
    (brings : Brings known documents told l l') : Brings (fun _ => True) documents told l l' :=
  { brings with store := id }

theorem Tacit.of_idle (idle : Idle l.state s) : Tacit known l (l.change watch s) where
  toContinues := .of_still idle.toStill
  server := idle.server
  documents := idle.documents
  failures := idle.failures
  store := by
    rw [Chronicle.change, idle.store]
    exact id
  tells := by simp [Chronicle.change, changed_of_still idle.toStill]

theorem woke_cases (on : Wait) (s : Session σ) :
    watch.woke on s = [] ∨ ∃ i, on = .room i ∧ watch.woke on s = [.refused i] ∧
      i < s.connections.length ∧ isConnected i s = false := by
  cases on with
  | room i =>
    by_cases closed : (s.connection? i).any (!·.writing) = true
    · cases found : s.connections[i]? with
      | none => simp [connection?, found] at closed
      | some c =>
        refine .inr ⟨i, rfl, if_pos closed, (List.getElem?_eq_some_iff.mp found).1, ?_⟩
        simpa [isConnected, connection?, found] using closed
    · exact .inl (if_neg closed)
  | _ => exact .inl rfl

theorem Tacit.wake {on : Wait} (relied : amidst known on l.state s) :
    Tacit known l (l.wake watch on s) := by
  obtain ⟨beside, -, store⟩ := relied
  refine ⟨⟨Nat.le_of_eq beside.length.symm, fun i _ => beside.closed i, watch.woke on s, rfl, ?_, ?_⟩,
    congrArg Client.server beside.client, beside.documents, beside.failures, fun _ => store, ?_⟩
  · intro e member
    rcases woke_cases on s with none | ⟨i, -, refused, within⟩
    · rw [none] at member
      cases member
    · rw [refused] at member
      rw [List.mem_singleton.mp member]
      exact within
  · rcases woke_cases on s with none | ⟨i, -, refused, -⟩
    · simp [none]
    · simp [refused]
  · rw [Chronicle.wake, List.filter_append]
    rcases woke_cases on s with none | ⟨i, -, refused, -⟩
    · simp [none]
    · simp [refused, Entry.tells]

end Relations

end LinterClient.Session
