import LinterClient.Proofs.Session.Life

/-!
What is sent, and what becomes of it.

A connection takes a frame as long as it writes. What the client's own task sends besides what it tells
of documents is shown here to be of no consequence for them.
-/

namespace LinterClient.Session

variable {σ : Type}

section Sending

variable {known : σ → Prop} {i j : Nat} {o : Outgoing} {s : Session σ} {l : Life σ} {c : Connection}

theorem onConnection_snd {α : Type} (default : α) (f : Connection → α × Connection) :
    (onConnection i default f s).2 = changeConnection i (fun c => (f c).2) s := by
  unfold onConnection changeConnection
  cases found : s.connections[i]? with
  | none => rw [List.modify_eq_self (List.getElem?_eq_none_iff.mp found)]
  | some c =>
    obtain ⟨exists_, here⟩ := List.getElem?_eq_some_iff.mp found
    have same : s.connections.set i (f c).2 = s.connections.modify i fun c => (f c).2 := by
      refine List.ext_getElem? fun j => ?_
      rw [List.getElem?_set, List.getElem?_modify]
      by_cases equal : i = j
      · subst equal
        simp [exists_, here]
      · simp [equal]
    dsimp only
    rw [same]

theorem connection?_changeConnection (f : Connection → Connection) :
    (changeConnection i f s).connection? j =
      if j = i then (s.connection? j).map f else s.connection? j := by
  unfold changeConnection connection?
  rw [List.getElem?_modify]
  by_cases same : j = i
  · simp [same]
  · simp [same, Ne.symm same]

theorem connection?_of_change {f : Connection → Connection}
    (found : s.connection? i = some c) : (changeConnection i f s).connection? i = some (f c) := by
  rw [connection?_changeConnection, if_pos rfl, found]
  rfl

theorem onConnection_of_found {α : Type} (default : α) (f : Connection → α × Connection)
    (found : s.connection? i = some c) :
    onConnection i default f s = ((f c).1, changeConnection i (fun c => (f c).2) s) := by
  refine Prod.ext ?_ (onConnection_snd _ _)
  have found : s.connections[i]? = some c := found
  rw [onConnection, found]

theorem changeConnection_congr {f g : Connection → Connection} (found : s.connection? i = some c)
    (same : f c = g c) : changeConnection i f s = changeConnection i g s := by
  have found : s.connections[i]? = some c := found
  have connections : s.connections.modify i f = s.connections.modify i g := by
    apply List.ext_getElem?
    intro j
    rw [List.getElem?_modify, List.getElem?_modify]
    by_cases here : i = j
    · subst here
      simp [found, same]
    · simp [here]
  rw [changeConnection, changeConnection, connections]

theorem changeConnection_of_same {f : Connection → Connection} (found : s.connection? i = some c)
    (same : f c = c) : changeConnection i f s = s := by
  have none_ : s.connections.modify i id = s.connections := List.modify_id _ _
  rw [changeConnection_congr (g := id) found same, changeConnection, none_]

theorem changeConnection_twice (found : s.connection? i = some c) (f g : Connection → Connection) :
    changeConnection i g (changeConnection i f s) = changeConnection i (fun _ => g (f c)) s := by
  have both : s.connections.modify i (g ∘ f) = (s.connections.modify i f).modify i g :=
    (List.modify_modify_eq f g i s.connections).symm
  have once : changeConnection i g (changeConnection i f s) = changeConnection i (g ∘ f) s := by
    simp only [changeConnection, both]
  rw [once]
  exact changeConnection_congr found rfl

theorem idle_changeConnection {f : Connection → Connection}
    (same : ∀ c, s.connection? i = some c → (f c).outbox = c.outbox ∧ (f c).writing = c.writing) :
    Idle s (changeConnection i f s) := by
  refine ⟨⟨List.length_modify _ _ _, fun j => ?_⟩, rfl, rfl, rfl, rfl⟩
  rw [connection?_changeConnection]
  split
  · rename_i here
    subst here
    cases found : s.connection? j with
    | none => rfl
    | some c => simp [same c found]
  · rfl

theorem idle_onConnection {α : Type} (default : α) {f : Connection → α × Connection}
    (same : ∀ c, (f c).2.outbox = c.outbox ∧ (f c).2.writing = c.writing) :
    Idle s (onConnection i default f s).2 := by
  rw [onConnection_snd]
  exact idle_changeConnection fun c _ => same c

/-- The frames that wait in an outbox. -/
def frames (outbox : List Outgoing) : List Json :=
  outbox.filterMap fun
    | .frame message => some message
    | .stop => none

theorem frames_append (outbox more : List Outgoing) : frames (outbox ++ more) = frames outbox ++ frames more :=
  List.filterMap_append

/-- A session after something was put in an outbox, if that was possible. -/
def enqueued (i : Nat) (o : Outgoing) (s : Session σ) : Session σ :=
  changeConnection i (fun c => (c.enqueue o).2) s

theorem enqueued_of_closed (found : s.connection? i = some c) (closed : c.writing = false) :
    enqueued i o s = s :=
  changeConnection_of_same found (by simp [Connection.enqueue, closed])

theorem onConnection_enqueue :
    onConnection i false (·.enqueue o) s = (isConnected i s, enqueued i o s) := by
  refine Prod.ext ?_ (onConnection_snd _ _)
  unfold onConnection isConnected connection? Connection.enqueue
  cases s.connections[i]? with
  | none => rfl
  | some c => cases writing : c.writing <;> simp [writing]

theorem idle_enqueued (closed : isConnected i s = false) : Idle s (enqueued i o s) := by
  refine idle_changeConnection fun c found => ?_
  have writing : c.writing = false := by simpa [isConnected, found] using closed
  simp [Connection.enqueue, writing]

theorem outbox_enqueued (connected : isConnected i s = true) :
    outbox (enqueued i o s) j = if j = i then outbox s j ++ [o] else outbox s j := by
  rw [outbox, enqueued, connection?_changeConnection]
  split
  · rename_i same
    subst same
    cases found : s.connection? j with
    | none => simp [isConnected, found] at connected
    | some c =>
      have writing : c.writing = true := by simpa [isConnected, found] using connected
      simp [Connection.enqueue, writing, outbox, found]
  · rfl

theorem isConnected_enqueued : isConnected j (enqueued i o s) = isConnected j s := by
  rw [isConnected, enqueued, connection?_changeConnection]
  split
  · cases found : s.connection? j with
    | none => simp [isConnected, found]
    | some c => cases writing : c.writing <;> simp [isConnected, found, Connection.enqueue, writing]
  · rfl

theorem exists_of_connected (connected : isConnected i s = true) : i < s.connections.length := by
  cases found : s.connections[i]? with
  | none => simp [isConnected, connection?, found] at connected
  | some c => exact (List.getElem?_eq_some_iff.mp found).1

theorem flatMap_range_only {α : Type} (n i : Nat) (l : List α) :
    ((List.range n).flatMap fun j => if j = i then l else []) = if i < n then l else [] := by
  induction n with
  | zero => rfl
  | succ n ih =>
    rw [List.range_succ, List.flatMap_append, ih]
    grind

theorem changed_enqueued (connected : isConnected i s = true) :
    watch.changed s (enqueued i o s) =
      match o with
      | .frame m => [.handed i m s.documents.synced]
      | .stop => [] := by
  have only : ∀ j, handed s (enqueued i o s) j = if j = i then
      (match o with
        | .frame m => [.handed i m s.documents.synced]
        | .stop => []) else [] := by
    intro j
    rw [handed, outbox_enqueued connected]
    split
    · rename_i same
      subst same
      rw [List.drop_left]
      cases o <;> rfl
    · rw [List.drop_length]
      rfl
  have exists_ : i < (enqueued i o s).connections.length := by
    rw [enqueued, changeConnection, List.length_modify]
    exact exists_of_connected connected
  show (List.range _).flatMap (handed s (enqueued i o s)) = _
  rw [funext only, flatMap_range_only, if_pos exists_]

theorem Continues.enqueued (connected : isConnected i l.state = true) :
    Continues l (l.change watch (enqueued i o l.state)) := by
  have length : (Session.enqueued i o l.state).connections.length = l.state.connections.length :=
    List.length_modify _ _ _
  refine ⟨Nat.le_of_eq length.symm, fun j _ => ?_, _, rfl, ?_, ?_⟩
  · rw [Chronicle.change, isConnected_enqueued]
    exact id
  · rw [changed_enqueued connected]
    cases o with
    | stop => simp
    | frame m =>
      intro e member
      rw [List.mem_singleton.mp member]
      exact ⟨length ▸ exists_of_connected connected, fun _ => connected⟩
  · rw [changed_enqueued connected]
    cases o <;> simp

/-- Something is put in the outbox, or the connection is closed and refuses it. -/
theorem ensures_send {post : Bool → Life σ → Prop}
    (taken : ∀ l', Tacit known l l' → isConnected i l'.state = true →
      post true (l'.change watch (enqueued i o l'.state)))
    (refused : ∀ l', Tacit known l l' →
      (i < l.state.connections.length → .refused i ∈ l'.journal) → post false l') :
    (send i o).Ensures watch (amidst known) post l := by
  rw [send, Program.ensures_bind, Program.ensures_await]
  intro s relied
  -- Nobody comes between the end of the wait and the attempt, so `s` decides whether it succeeds.
  rw [Program.ensures_modifyGet, onConnection_enqueue]
  have quiet : Tacit known l (l.wake watch (.room i) s) := .wake relied
  show post (isConnected i s) ((l.wake watch (.room i) s).change watch (enqueued i o s))
  cases connected : isConnected i s with
  | true => exact taken _ quiet connected
  | false =>
    refine refused _ (quiet.trans (.of_idle (idle_enqueued connected))) fun exists_ => ?_
    have closed : (s.connection? i).any (!·.writing) = true := by
      have here : i < s.connections.length := relied.1.length.symm ▸ exists_
      simpa [isConnected, connection?, here] using connected
    have woke : watch.woke (.room i) s = [.refused i] := if_pos closed
    simp [Chronicle.change, Chronicle.wake, woke]

/-- A server is told of a document, unless its connection is closed. -/
theorem ensures_notify {method : String} {params : Option Json}
    (tells : (told? (Protocol.notification method params)).isSome = true)
    (exists_ : i < l.state.connections.length) {post : Except RequestError Unit → Life σ → Prop}
    (taken : ∀ l', isConnected i l.state = true → Brings known l.state.documents
      [.handed i (Protocol.notification method params) l.state.documents.synced] l l' →
        post (.ok ()) l')
    (refused : ∀ l', .refused i ∈ l'.journal → Tacit known l l' → post (.error (.notSent method)) l') :
    (notify i method params).Ensures watch (amidst known) post l := by
  rw [notify, Program.ensures_bind]
  refine ensures_send (fun l' quiet connected => ?_) fun l' quiet closed => refused l' (closed exists_) quiet
  refine taken _ (quiet.closed i exists_ connected) (Brings.trans quiet ⟨.enqueued connected, rfl, ?_, rfl, id, ?_⟩)
  · exact quiet.documents
  · rw [Chronicle.change, changed_enqueued connected, List.filter_append, quiet.documents]
    simp [Entry.tells, tells]

theorem ensures_notifyOpened {d : OpenDocument} (exists_ : i < l.state.connections.length)
    {post : Except RequestError Unit → Life σ → Prop}
    (taken : ∀ l', isConnected i l.state = true →
      Brings known l.state.documents [.handed i (openedFrame d) l.state.documents.synced] l l' →
        post (.ok ()) l')
    (refused : ∀ l' e, .refused i ∈ l'.journal → Tacit known l l' → post (.error e) l') :
    (notifyOpened i d).Ensures watch (amidst known) post l :=
  ensures_notify (congrArg Option.isSome (told?_openedFrame d)) exists_ taken fun l' => refused l' _

theorem ensures_notifyClosed {uri : Url} (exists_ : i < l.state.connections.length)
    {post : Except RequestError Unit → Life σ → Prop}
    (taken : ∀ l' result, isConnected i l.state = true →
      Brings known l.state.documents [.handed i (closedFrame uri) l.state.documents.synced] l l' →
        post result l')
    (refused : ∀ l' result, .refused i ∈ l'.journal → Tacit known l l' → post result l') :
    (notifyClosed i uri).Ensures watch (amidst known) post l :=
  ensures_notify (congrArg Option.isSome (told?_closedFrame uri)) exists_ (fun l' => taken l' _)
    fun l' => refused l' _

end Sending

/-- A task that neither looks at documents nor tells a server of them. -/
def Calm {α : Type} (known : σ → Prop) (task : Task σ α) : Prop :=
  ∀ l, task.Ensures watch (amidst known) (fun _ l' => Tacit known l l') l

namespace Calm

variable {α β : Type} {known : σ → Prop} {i : Nat}

theorem pure (a : α) : Calm known (.done a : Task σ α) := Tacit.refl

theorem bind {task : Task σ α} {next : α → Task σ β} (first : Calm known task)
    (rest : ∀ a, Calm known (next a)) : Calm known (task >>= next) := by
  intro l
  rw [Program.ensures_bind]
  exact (first l).mono fun a l' quiet => (rest a l').mono fun _ _ more => quiet.trans more

theorem get : Calm known (.get : Task σ (Session σ)) := Tacit.refl

theorem modify {f : Session σ → Session σ} (idle : ∀ s, Idle s (f s)) :
    Calm known (.modify f : Task σ Unit) :=
  fun l => Tacit.of_idle (idle l.state)

theorem modifyGet {f : Session σ → α × Session σ} (idle : ∀ s, Idle s (f s).2) :
    Calm known (.modifyGet f : Task σ α) :=
  fun l => Tacit.of_idle (idle l.state)

theorem await (on : Wait) : Calm known (.await on : Task σ Unit) :=
  fun _ _ relied => Tacit.wake relied

theorem start (job : Job) : Calm known (.start job : Task σ Unit) := Tacit.refl

theorem send {o : Outgoing} (silent : ∀ m, o = .frame m → told? m = none) :
    Calm known (Session.send i o : Task σ Bool) := by
  intro l
  refine ensures_send (fun l' quiet connected => quiet.trans ?_) fun l' quiet _ => quiet
  refine ⟨.enqueued connected, rfl, rfl, rfl, id, ?_⟩
  rw [Chronicle.change, changed_enqueued connected, List.filter_append]
  cases o with
  | stop => simp
  | frame m => simp [Entry.tells, silent m rfl]

theorem notify {method : String} {params : Option Json}
    (other : method ≠ "textDocument/didOpen" ∧ method ≠ "textDocument/didClose") :
    Calm known (Session.notify i method params : Task σ (Except RequestError Unit)) := by
  refine bind (send fun m same => ?_) fun sent => ?_
  · rw [← Outgoing.frame.inj same]
    exact told?_of_method (method?_notification method params) other
  · cases sent <;> exact pure _

theorem writeLog (level : LogLevel) (text : String) : Calm known (Session.writeLog level text : Task σ Unit) :=
  modify fun _ => ⟨.of_connections rfl, rfl, rfl, rfl, rfl⟩

theorem announceLater (level : Window.Level) (text action : String) :
    Calm known (Session.announceLater level text action : Task σ Unit) := start _

theorem updateStatus (f : StatusItem → StatusItem) : Calm known (Session.updateStatus f : Task σ Unit) :=
  bind (modify fun _ => ⟨.of_connections rfl, rfl, rfl, rfl, rfl⟩) fun _ =>
    bind get fun _ => modify fun _ => ⟨.of_connections rfl, rfl, rfl, rfl, rfl⟩

theorem requestWithin {method : String} {params : Option Json} {patience : Nat}
    (other : method ≠ "textDocument/didOpen" ∧ method ≠ "textDocument/didClose") :
    Calm known (Session.requestWithin i method params patience : Task σ (Except RequestError Json)) := by
  refine bind (modifyGet fun s => idle_onConnection _ fun c => ⟨rfl, rfl⟩) fun id => ?_
  refine bind (send fun m same => ?_) fun sent => ?_
  · rw [← Outgoing.frame.inj same]
    exact told?_of_method (method?_request id method params) other
  split
  · exact bind (modify fun s => idle_changeConnection fun c _ => ⟨rfl, rfl⟩) fun _ => pure _
  · refine bind get fun s => bind (await _) fun _ => ?_
    refine bind (modifyGet fun s => idle_onConnection _ fun c => ⟨rfl, rfl⟩) fun reply => ?_
    cases reply with
    | waiting => exact pure _
    | lost => exact pure _
    | arrived body =>
      dsimp only
      split <;> exact pure _

theorem request {method : String} {params : Option Json}
    (other : method ≠ "textDocument/didOpen" ∧ method ≠ "textDocument/didClose") :
    Calm known (Session.request i method params : Task σ (Except RequestError Json)) :=
  bind get fun _ => requestWithin other

theorem handshake (root : Option Url) (folders : List (String × Url)) :
    Calm known (Session.handshake i root folders : Task σ (Except HandshakeError Json)) := by
  refine bind get fun s => bind (request (by simp)) fun result => ?_
  cases result with
  | error e => exact pure _
  | ok capabilities =>
    refine bind (notify (by simp)) fun sent => ?_
    cases sent <;> exact pure _

theorem endProcess : Calm known (.modify (changeConnection i Session.endProcess) : Task σ Unit) :=
  modify fun _ => idle_changeConnection fun _ _ => by
    unfold Session.endProcess
    split <;> exact ⟨rfl, rfl⟩

theorem shutdown : Calm known (Session.shutdown i : Task σ Unit) := by
  refine bind get fun s => ?_
  extract_lets finish
  have calm (r : PUnit) : Calm known (finish r) := by
    refine bind (send nofun) fun _ => bind (await _) fun _ => bind get fun s' => ?_
    split
    · exact modify fun s => idle_changeConnection fun c _ => ⟨rfl, rfl⟩
    · exact bind (await _) fun _ => endProcess
  split
  · refine bind (requestWithin (by simp)) fun result => ?_
    cases result with
    | ok => exact bind (notify (by simp)) fun _ => calm ⟨⟩
    | error => exact calm ⟨⟩
  · exact calm ⟨⟩

theorem ignoreEvents : Calm known (.modify (changeConnection i (·.ignoreEvents)) : Task σ Unit) :=
  modify fun _ => idle_changeConnection fun _ _ => ⟨rfl, rfl⟩

end Calm

theorem idle_dropEvents (s : Session σ) : Idle s (dropEvents s) := by
  unfold dropEvents
  split
  · exact idle_changeConnection fun c _ => ⟨rfl, rfl⟩
  · exact ⟨.of_connections rfl, rfl, rfl, rfl, rfl⟩

theorem idle_takeCommand (s : Session σ) : Idle s (takeCommand s).2 := by
  unfold takeCommand
  split <;> exact ⟨.of_connections rfl, rfl, rfl, rfl, rfl⟩

theorem idle_takeEvent (s : Session σ) : Idle s (takeEvent s).2 := by
  unfold takeEvent
  split
  · exact ⟨.of_connections rfl, rfl, rfl, rfl, rfl⟩
  · refine idle_onConnection _ fun c => ?_
    split <;> exact ⟨rfl, rfl⟩

end LinterClient.Session
