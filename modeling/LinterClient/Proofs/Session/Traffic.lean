import LinterClient.Proofs.Session.Requesting

/-!
Requests over one connection.

Any number of tasks send requests, the reader hands out the responses, and others do what they like
besides. In each of these steps the ledger of the connection goes on, and each request stands to its own
entry as before.
-/

namespace LinterClient.Session

variable {σ κ : Type} {i : Nat}

/-- Others leave alone what a connection keeps of its requests. -/
def Elsewhere (i : Nat) (s s' : Session σ) : Prop :=
  ∀ c, s.connection? i = some c → ∃ c', s'.connection? i = some c' ∧
    c'.nextId = c.nextId ∧ c'.pending = c.pending ∧ c'.arrived = c.arrived

/-- The requests over a connection and its reader, with the frames that each request handed over and
with what was heard of the server. -/
structure Traffic (σ κ : Type) where
  session : Session σ
  reader : Task σ (Option Job)
  calls : κ → Task σ (Except RequestError Json)
  handed : κ → List Json
  notes : List Note

/-- The reader or a request goes on, or others do something. -/
inductive Event (σ κ : Type) (i : Nat) where
  | read
  | call (k : κ)
  | aside (f : Session σ → Session σ) (keeps : ∀ s, Elsewhere i s (f s))

def waiting (i : Nat) (s : Session σ) : List Nat :=
  ((s.connection? i).map (·.pending)).getD []

/-- The frames at the end of an outbox that were not in it before. -/
def newFrames (before after : List Outgoing) : List Json :=
  frames (after.drop before.length)

namespace Traffic

variable [Host σ] [DecidableEq κ] (handler : String → Json → Task σ (Except Protocol.Error Json))

def move (t : Traffic σ κ) : Event σ κ i → Traffic σ κ
  | .read =>
    if System.enabled (jobRules handler) t.session t.reader then
      let stop := (System.resume t.reader).advance t.session
      { t with
        session := stop.2.1
        reader := continued handler stop.1
        notes := t.notes ++ heard (waiting i t.session) (finding? i t.reader t.session) }
    else t
  | .call k =>
    if System.enabled (jobRules handler) t.session (t.calls k) then
      let stop := (System.resume (t.calls k)).advance t.session
      let frames := newFrames (outbox t.session i) (outbox stop.2.1 i)
      { t with
        session := stop.2.1
        calls := Function.update t.calls k stop.1.program
        handed := Function.update t.handed k (t.handed k ++ frames) }
    else t
  | .aside f _ => { t with session := f t.session }

def after (t : Traffic σ κ) (events : List (Event σ κ i)) : Traffic σ κ :=
  events.foldl (move handler) t

omit [Host σ] [DecidableEq κ] in
/-- A new connection, with all the requests that are ever made over it. A request begins when it first
goes on. -/
def start (s : Session σ) (requestTimeout : Nat) (process : ServerProcess)
    (what : κ → String × Option Json) : Traffic σ κ :=
  let i := s.connections.length
  ⟨((connect requestTimeout process).advance s).2.1, Session.reader i,
    fun k => request i (what k).1 (what k).2, fun _ => [], []⟩

end Traffic

/-- Where a request stands, by its id and the frames that it handed over. -/
inductive Standing (i : Nat) (notes : List Note) (c : Connection) (method : String) (params : Option Json) :
    Option Nat → List Json → Task σ (Except RequestError Json) → Prop where
  | unstarted : Standing i notes c method params none [] (request i method params)
  | sends {n : Nat} {task : Task σ (Except RequestError Json)} : n < c.nextId → Tracked notes c n →
    Sends i n method params task → Standing i notes c method params (some n) [] task
  | awaits {n : Nat} {task : Task σ (Except RequestError Json)} : n < c.nextId → Tracked notes c n →
    Awaits i n method task →
      Standing i notes c method params (some n) [Protocol.request n method params] task
  | returned {n : Nat} {frames : List Json} {r : Except RequestError Json} : n < c.nextId → n ∉ c.pending →
    frames = [] ∨ frames = [Protocol.request n method params] → Told notes n method r →
      Standing i notes c method params (some n) frames (.done r)

theorem Standing.later {notes notes' : List Note} {c c' : Connection} {dropped : Option Nat} {method : String}
    {params : Option Json} {id : Option Nat} {frames : List Json} {task : Task σ (Except RequestError Json)}
    (standing : Standing i notes c method params id frames task) (later : Later dropped notes c notes' c')
    (other : ∀ n, id = some n → dropped ≠ some n) :
    Standing i notes' c' method params id frames task := by
  cases standing with
  | unstarted => exact .unstarted
  | sends used tracked sends =>
    exact .sends (Nat.lt_of_lt_of_le used later.nextId) (later.tracked _ (other _ rfl) tracked) sends
  | awaits used tracked awaits =>
    exact .awaits (Nat.lt_of_lt_of_le used later.nextId) (later.tracked _ (other _ rfl) tracked) awaits
  | returned used settled frames told =>
    exact .returned (Nat.lt_of_lt_of_le used later.nextId) (settled ∘ later.pending _ used) frames
      (told.later later settled)

/-- The requests stand to what is kept of them, and so does the reader. -/
structure Paired (i : Nat) (what : κ → String × Option Json) (ids : κ → Option Nat) (t : Traffic σ κ)
    (c : Connection) : Prop where
  found : t.session.connection? i = some c
  reader : ∃ stand : ReaderStand, t.reader = stand.task i
  distinct : ∀ k k' n, ids k = some n → ids k' = some n → k = k'
  ledger : ∀ n, Ledger t.notes c n
  owned : ∀ n ∈ c.pending, ∃ k, ids k = some n ∧ ∀ r, t.calls k ≠ .done r
  standing : ∀ k, Standing i t.notes c (what k).1 (what k).2 (ids k) (t.handed k) (t.calls k)

section Steps

variable {what : κ → String × Option Json} {ids : κ → Option Nat} {t : Traffic σ κ} {c : Connection}

theorem Paired.start (s : Session σ) (requestTimeout : Nat) (process : ServerProcess)
    (what : κ → String × Option Json) :
    Paired s.connections.length what (fun _ => none) (.start s requestTimeout process what)
      (.new requestTimeout process) where
  found := by
    show (s.connections ++ [_])[s.connections.length]? = _
    simp
  reader := ⟨.idle, rfl⟩
  distinct := by simp
  ledger := Ledger.new requestTimeout process
  owned := by simp [Connection.new]
  standing _ := .unstarted

/-- What is not done by a request leaves the requests where they are. -/
theorem Paired.elsewhere (paired : Paired i what ids t c) {c' : Connection} {t' : Traffic σ κ}
    (found : t'.session.connection? i = some c') (reader : ∃ stand : ReaderStand, t'.reader = stand.task i)
    (calls : t'.calls = t.calls) (handed : t'.handed = t.handed)
    (books : Books none t.notes c t'.notes c') :
    Paired i what ids t' c' where
  found := found
  reader := reader
  distinct := paired.distinct
  ledger n := books.ledger n (paired.ledger n)
  owned n waiting := by
    rw [calls]
    exact paired.owned n (books.fewer n waiting)
  standing k := by
    rw [calls, handed]
    exact (paired.standing k).later books.later fun _ _ => nofun

variable [Host σ] [DecidableEq κ] (handler : String → Json → Task σ (Except Protocol.Error Json))

theorem Paired.aside (paired : Paired i what ids t c) {f : Session σ → Session σ}
    (keeps : ∀ s, Elsewhere i s (f s)) : ∃ c', Paired i what ids (t.move handler (.aside f keeps)) c' := by
  obtain ⟨c', found, nextId, pending, arrived⟩ := keeps t.session c paired.found
  exact ⟨c', paired.elsewhere found paired.reader rfl rfl (.still nextId pending arrived)⟩

theorem Paired.read (paired : Paired i what ids t c) :
    ∃ c', Paired i what ids (t.move handler (.read : Event σ κ i)) c' := by
  rw [Traffic.move]
  split
  rotate_left
  · exact ⟨c, paired⟩
  obtain ⟨stand, stands⟩ := paired.reader
  obtain ⟨stand', stands', goes⟩ := reader_goes handler stand paired.found
  obtain ⟨c', found', books⟩ := goes.books paired.found t.notes
  have waits : waiting i t.session = c.pending := by
    rw [waiting, paired.found]
    rfl
  rw [waits, stands]
  exact ⟨c', paired.elsewhere found' ⟨stand', stands'⟩ rfl rfl books⟩

omit [Host σ] in
/-- A request that goes on leaves the others where they are. -/
theorem Paired.called (paired : Paired i what ids t c) {k : κ} {ids' : κ → Option Nat} {s : Session σ}
    {c' : Connection} {task : Task σ (Except RequestError Json)} {frames : List Json} {dropped : Option Nat}
    (others : ∀ k' ≠ k, ids' k' = ids k') (found : s.connection? i = some c')
    (distinct : ∀ k k' n, ids' k = some n → ids' k' = some n → k = k')
    (ledger : ∀ n, Ledger t.notes c' n) (later : Later dropped t.notes c t.notes c')
    (mine : ∀ n, dropped = some n → ids' k = some n)
    (owned : ∀ n ∈ c'.pending, (∃ k' ≠ k, ids k' = some n ∧ ∀ r, t.calls k' ≠ .done r) ∨
      ids' k = some n ∧ ∀ r, task ≠ .done r)
    (standing : Standing i t.notes c' (what k).1 (what k).2 (ids' k) frames task) :
    Paired i what ids'
      ⟨s, t.reader, Function.update t.calls k task, Function.update t.handed k frames, t.notes⟩ c' where
  found := found
  reader := paired.reader
  distinct := distinct
  ledger := ledger
  owned n waiting := by
    rcases owned n waiting with ⟨k', other, is, running⟩ | ⟨is, running⟩
    · have same : Function.update t.calls k task k' = t.calls k' := Function.update_of_ne other _ _
      exact ⟨k', (others k' other).trans is, fun r is => running r (same.symm.trans is)⟩
    · have same : Function.update t.calls k task k = task := Function.update_self _ _ _
      exact ⟨k, is, fun r is => running r (same.symm.trans is)⟩
  standing k' := by
    by_cases same : k' = k
    · subst same
      dsimp only
      rw [Function.update_self, Function.update_self]
      exact standing
    · dsimp only
      rw [Function.update_of_ne same, Function.update_of_ne same, others k' same]
      refine (paired.standing k').later later fun n is drops => same ?_
      exact distinct k' k n ((others k' same).trans is) (mine n drops)

omit [Host σ] [DecidableEq κ] in
theorem outbox_of_found {s : Session σ} (found : s.connection? i = some c) : outbox s i = c.outbox := by
  rw [outbox, found]
  rfl

theorem newFrames_same (before : List Outgoing) : newFrames before before = [] := by
  simp [newFrames, frames]

theorem newFrames_append (before : List Outgoing) (message : Json) :
    newFrames before (before ++ [.frame message]) = [message] := by
  simp [newFrames, frames]

omit [Host σ] [DecidableEq κ] in
theorem Paired.used (paired : Paired i what ids t c) {k : κ} {n : Nat} (id : ids k = some n) : n < c.nextId := by
  have own := paired.standing k
  rw [id] at own
  generalize t.handed k = frames at own
  generalize t.calls k = task at own
  cases own with
  | sends used => exact used
  | awaits used => exact used
  | returned used => exact used

omit [Host σ] [DecidableEq κ] in
theorem Paired.owned_cases (paired : Paired i what ids t c) (k : κ) {n : Nat} (waiting : n ∈ c.pending) :
    (∃ k' ≠ k, ids k' = some n ∧ ∀ r, t.calls k' ≠ .done r) ∨ ids k = some n := by
  obtain ⟨k', is, running⟩ := paired.owned n waiting
  by_cases same : k' = k
  · exact .inr (same ▸ is)
  · exact .inl ⟨k', same, is, running⟩

omit [Host σ] in
theorem Paired.begun (paired : Paired i what ids t c) {k : κ} (unstarted : ids k = none)
    {task : Task σ (Except RequestError Json)} {s : Session σ}
    (sends : Sends i c.nextId (what k).1 (what k).2 task)
    (state : s = changeConnection i (fun c => c.newRequest.2) t.session) :
    Paired i what (Function.update ids k (some c.nextId))
      ⟨s, t.reader, Function.update t.calls k task, Function.update t.handed k [], t.notes⟩
      c.newRequest.2 := by
  have newId : Function.update ids k (some c.nextId) k = some c.nextId := Function.update_self _ _ _
  have oldId (k' : κ) (other : k' ≠ k) : Function.update ids k (some c.nextId) k' = ids k' :=
    Function.update_of_ne other _ _
  have fresh (k' : κ) : ids k' ≠ some c.nextId := by
    intro is
    exact Nat.lt_irrefl _ (paired.used is)
  refine paired.called oldId ?_ ?_ (fun n => (paired.ledger n).newRequest) .newRequest (fun _ => nofun) ?_ ?_
  · rw [state]
    exact connection?_of_change paired.found
  · intro k₁ k₂ n first second
    by_cases first_ : k₁ = k
    · by_cases second_ : k₂ = k
      · exact first_.trans second_.symm
      · rw [first_, newId] at first
        rw [oldId k₂ second_, ← first] at second
        exact absurd second (fresh k₂)
    · by_cases second_ : k₂ = k
      · rw [second_, newId] at second
        rw [oldId k₁ first_, ← second] at first
        exact absurd first (fresh k₁)
      · rw [oldId k₁ first_] at first
        rw [oldId k₂ second_] at second
        exact paired.distinct k₁ k₂ n first second
  · intro n waiting
    rcases List.mem_append.mp waiting with old | new
    · rcases paired.owned_cases k old with other | own
      · exact .inl other
      · rw [unstarted] at own
        cases own
    · rw [List.mem_singleton.mp new]
      obtain ⟨next, waits⟩ := sends.waits
      exact .inr ⟨newId, by simp [waits]⟩
  · rw [newId]
    have waits : c.nextId ∈ c.newRequest.2.pending := List.mem_append_right _ (List.mem_singleton_self _)
    exact .sends (Nat.lt_succ_self _) (.inl waits) sends

omit [Host σ] in
theorem Paired.sent (paired : Paired i what ids t c) {k : κ} {n : Nat} (id : ids k = some n)
    {task : Task σ (Except RequestError Json)} {s : Session σ} {c' : Connection}
    (awaits : Awaits i n (what k).1 task) (tracked : Tracked t.notes c n) (found : s.connection? i = some c')
    (books : Books none t.notes c t.notes c') :
    Paired i what ids
      ⟨s, t.reader, Function.update t.calls k task,
        Function.update t.handed k [Protocol.request n (what k).1 (what k).2], t.notes⟩ c' := by
  refine paired.called (fun _ _ => rfl) found paired.distinct (fun n => books.ledger n (paired.ledger n))
    books.later (fun _ => nofun) ?_ ?_
  · intro n' waiting
    rcases paired.owned_cases k (books.fewer n' waiting) with other | own
    · exact .inl other
    · obtain ⟨deadline, next, waits⟩ := awaits.waits
      exact .inr ⟨own, by simp [waits]⟩
  · rw [id]
    exact .awaits (Nat.lt_of_lt_of_le (paired.used id) books.later.nextId) (books.later.tracked n nofun tracked) awaits

omit [Host σ] in
theorem Paired.ended (paired : Paired i what ids t c) {k : κ} {n : Nat} (id : ids k = some n)
    {r : Except RequestError Json} {s : Session σ} {c' : Connection} {frames : List Json}
    {dropped : Option Nat} (found : s.connection? i = some c') (books : Books dropped t.notes c t.notes c')
    (mine : ∀ n', dropped = some n' → n' = n) (settled : n ∉ c'.pending)
    (atMost : frames = [] ∨ frames = [Protocol.request n (what k).1 (what k).2])
    (told : Told t.notes n (what k).1 r) :
    Paired i what ids
      ⟨s, t.reader, Function.update t.calls k (.done r), Function.update t.handed k frames, t.notes⟩ c' := by
  refine paired.called (fun _ _ => rfl) found paired.distinct (fun n => books.ledger n (paired.ledger n))
    books.later (fun n' drops => mine n' drops ▸ id) ?_ ?_
  · intro n' waiting
    rcases paired.owned_cases k (books.fewer n' waiting) with other | own
    · exact .inl other
    · rw [Option.some.inj (id.symm.trans own)] at settled
      exact absurd waiting settled
  · rw [id]
    exact .returned (Nat.lt_of_lt_of_le (paired.used id) books.later.nextId) settled atMost told

theorem Paired.call (paired : Paired i what ids t c) (k : κ) :
    ∃ ids' c', Paired i what ids' (t.move handler (.call k : Event σ κ i)) c' := by
  rw [Traffic.move]
  split
  rotate_left
  · exact ⟨ids, c, paired⟩
  have own := paired.standing k
  dsimp only
  rw [outbox_of_found paired.found]
  generalize t.calls k = p at own
  generalize known : ids k = id at own
  generalize t.handed k = frames at own
  cases own with
  | unstarted =>
    obtain ⟨sends, went⟩ := request_begins (what k).1 (what k).2 paired.found
    have begun := paired.begun known sends (congrArg Prod.fst went)
    rw [outbox_of_found begun.found]
    show ∃ ids' c', Paired i what ids' ⟨_, _, _, Function.update _ k (newFrames c.outbox c.outbox), _⟩ c'
    rw [newFrames_same]
    exact ⟨_, _, begun⟩
  | @sends n _ used tracked sends =>
    cases writing : c.writing with
    | true =>
      obtain ⟨awaits, went⟩ := sends.sends t.session c paired.found writing
      have state := congrArg Prod.fst went
      have enqueues (o : Outgoing) : (c.enqueue o).2 = { c with outbox := c.outbox ++ [o] } := by
        rw [Connection.enqueue, if_pos writing]
      rw [state, enqueued, outbox_of_found (connection?_of_change paired.found), enqueues, newFrames_append]
      exact ⟨_, _, paired.sent known awaits tracked (connection?_of_change paired.found)
        (enqueues _ ▸ .still rfl rfl rfl)⟩
    | false =>
      have found := connection?_of_change (f := (·.forget n)) paired.found
      rw [sends.refused t.session c paired.found writing]
      dsimp only
      rw [outbox_of_found found]
      show ∃ ids' c', Paired i what ids' ⟨_, _, _, Function.update _ k (newFrames c.outbox c.outbox), _⟩ c'
      rw [newFrames_same]
      have settled : n ∉ (c.forget n).pending := fun waiting => (mem_forget.mp waiting).2 rfl
      exact ⟨_, _, paired.ended known found (.forget n) (fun _ is => (Option.some.inj is).symm) settled
        (.inl rfl) .notSent⟩
  | @awaits n _ used tracked awaits =>
    obtain ⟨patience, takes⟩ := awaits.takes
    have found := connection?_of_change (f := fun c => (c.takeReply n).2) paired.found
    rw [takes t.session c paired.found]
    dsimp only
    rw [outbox_of_found found]
    show ∃ ids' c', Paired i what ids' ⟨_, _, _, Function.update _ k ([_] ++ newFrames c.outbox c.outbox), _⟩ c'
    rw [newFrames_same]
    have settled : n ∉ (c.takeReply n).2.pending := fun waiting => (mem_forget.mp waiting).2 rfl
    exact ⟨_, _, paired.ended known found (.takeReply n) (fun _ is => (Option.some.inj is).symm) settled
      (.inr rfl) ((paired.ledger n).told tracked (what k).1 patience)⟩
  | @returned n _ r used settled atMost told =>
    show ∃ ids' c', Paired i what ids' ⟨t.session, _, Function.update _ k (.done r),
      Function.update _ k (frames ++ newFrames c.outbox (outbox t.session i)), _⟩ c'
    rw [outbox_of_found paired.found, newFrames_same, List.append_nil]
    exact ⟨_, _, paired.ended known paired.found (.still rfl rfl rfl) (by simp) settled atMost told⟩

theorem Paired.move (paired : Paired i what ids t c) (event : Event σ κ i) :
    ∃ ids' c', Paired i what ids' (t.move handler event) c' := by
  cases event with
  | read =>
    obtain ⟨c', paired⟩ := paired.read handler
    exact ⟨ids, c', paired⟩
  | call k => exact paired.call handler k
  | aside f keeps =>
    obtain ⟨c', paired⟩ := paired.aside handler keeps
    exact ⟨ids, c', paired⟩

theorem Paired.after (paired : Paired i what ids t c) (events : List (Event σ κ i)) :
    ∃ ids' c', Paired i what ids' (t.after handler events) c' := by
  induction events generalizing t ids c with
  | nil => exact ⟨ids, c, paired⟩
  | cons event rest ih =>
    obtain ⟨ids', c', paired⟩ := paired.move handler event
    exact ih paired

end Steps

end LinterClient.Session
