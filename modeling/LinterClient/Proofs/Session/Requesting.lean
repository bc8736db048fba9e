import LinterClient.Proofs.Json.Members
import LinterClient.Proofs.Session.Reading

/-!
Requests to the server, and the responses that are kept for them.

What was heard of the server is noted. The ledger says how a connection stands to the notes: for each
id that was given away, the request still waits, or its only response is kept, or neither. Whatever the
reader hears, the books go on: no ledger breaks, and what a caller was told stays true.
-/

namespace LinterClient.Session

open Json (Members)
open Protocol (Incoming)

variable {σ : Type}

/-- What was heard of the server: a response, with whether a request waited for it, or the end of all
that it writes, with the requests that waited then. -/
inductive Note where
  | response (id : Nat) (body : Members) (awaited : Bool)
  | ended (waiting : List Nat)

/-- The responses with an id that came while a request waited for them. -/
def answers (notes : List Note) (n : Nat) : List Members :=
  notes.filterMap fun
    | .response id body true => if id = n then some body else none
    | _ => none

/-- A request still waited when the server had nothing more to say. -/
def LeftOver (notes : List Note) (n : Nat) : Prop :=
  ∃ waiting, .ended waiting ∈ notes ∧ n ∈ waiting

/-- What the caller of a request is told of a response. -/
def outcome (method : String) (body : Members) : Except RequestError Json :=
  match Members.get? body "error" with
  | some e => .error (.refused method ((e.get? "message").bind (·.asString?)))
  | none => .ok ((Members.get? body "result").getD .null)

/-- What the caller of a request is told of what became of it. -/
def verdict (method : String) (patience : Nat) : Connection.Reply → Except RequestError Json
  | .waiting => .error (.timedOut method patience)
  | .lost => .error (.lost method)
  | .arrived body => outcome method body

section Ledger

structure Ledger (notes : List Note) (c : Connection) (n : Nat) : Prop where
  waits : n ∈ c.pending → answers notes n = [] ∧ c.arrived.lookup n = none ∧ ¬ LeftOver notes n
  holds : ∀ body, c.arrived.lookup n = some body → answers notes n = [body]
  once : (answers notes n).length ≤ 1
  left : LeftOver notes n → answers notes n = []
  fresh : c.nextId ≤ n →
    n ∉ c.pending ∧ answers notes n = [] ∧ c.arrived.lookup n = none ∧ ¬ LeftOver notes n

variable {notes : List Note} {c c' : Connection} {n id : Nat} {body : Members}

theorem answers_append (notes more : List Note) (n : Nat) :
    answers (notes ++ more) n = answers notes n ++ answers more n :=
  List.filterMap_append

theorem answers_response (id : Nat) (body : Members) (awaited : Bool) (n : Nat) :
    answers [.response id body awaited] n = if awaited ∧ id = n then [body] else [] := by
  cases awaited with
  | false => rfl
  | true =>
    by_cases same : id = n
    · simp [answers, same]
    · simp [answers, same]

theorem leftOver_response {awaited : Bool} :
    LeftOver (notes ++ [.response id body awaited]) n ↔ LeftOver notes n := by
  simp [LeftOver]

theorem leftOver_ended {waiting : List Nat} :
    LeftOver (notes ++ [.ended waiting]) n ↔ LeftOver notes n ∨ n ∈ waiting := by
  simp only [LeftOver, List.mem_append, List.mem_singleton, Note.ended.injEq, or_and_right, exists_or]
  simp

theorem Ledger.new (requestTimeout : Nat) (process : ServerProcess) (n : Nat) :
    Ledger [] (.new requestTimeout process) n where
  waits := by simp [Connection.new]
  holds := by simp [Connection.new]
  once := by simp [answers]
  left := by simp [LeftOver]
  fresh := by simp [Connection.new, answers, LeftOver]

/-- A ledger only depends on what is kept of requests. -/
theorem Ledger.congr (ledger : Ledger notes c n) (nextId : c'.nextId = c.nextId)
    (pending : c'.pending = c.pending) (arrived : c'.arrived = c.arrived) : Ledger notes c' n := by
  constructor
  · rw [pending, arrived]
    exact ledger.waits
  · rw [arrived]
    exact ledger.holds
  · exact ledger.once
  · exact ledger.left
  · rw [nextId, pending, arrived]
    exact ledger.fresh

theorem Ledger.newRequest (ledger : Ledger notes c n) : Ledger notes c.newRequest.2 n where
  waits waiting := by
    rcases List.mem_append.mp waiting with old | new
    · exact ledger.waits old
    · rw [List.mem_singleton] at new
      exact (ledger.fresh (Nat.le_of_eq new.symm)).2
  holds := ledger.holds
  once := ledger.once
  left := ledger.left
  fresh later := by
    have later : c.nextId < n := later
    obtain ⟨pending, rest⟩ := ledger.fresh (Nat.le_of_lt later)
    refine ⟨?_, rest⟩
    intro waiting
    rcases List.mem_append.mp waiting with old | new
    · exact pending old
    · rw [List.mem_singleton.mp new] at later
      exact Nat.lt_irrefl _ later

theorem mem_forget : n ∈ (c.forget id).pending ↔ n ∈ c.pending ∧ n ≠ id := by
  simp [Connection.forget]

theorem Ledger.forget (ledger : Ledger notes c n) (id : Nat) : Ledger notes (c.forget id) n where
  waits waiting := ledger.waits (mem_forget.mp waiting).1
  holds := ledger.holds
  once := ledger.once
  left := ledger.left
  fresh later := by
    obtain ⟨pending, rest⟩ := ledger.fresh later
    exact ⟨fun waiting => pending (mem_forget.mp waiting).1, rest⟩

theorem Ledger.takeReply (ledger : Ledger notes c n) (id : Nat) : Ledger notes (c.takeReply id).2 n := by
  have forgotten := ledger.forget id
  have narrows (body : Members) : (c.arrived.filter (·.1 ≠ id)).lookup n = some body →
      c.arrived.lookup n = some body := by
    rw [lookup_filter_ne]
    split
    · exact nofun
    · exact fun kept => kept
  have empties (none_ : c.arrived.lookup n = none) : (c.arrived.filter (·.1 ≠ id)).lookup n = none := by
    rw [lookup_filter_ne, none_, ite_self]
  constructor
  · intro waiting
    obtain ⟨none_, arrived, left⟩ := forgotten.waits waiting
    exact ⟨none_, empties arrived, left⟩
  · intro body kept
    exact ledger.holds body (narrows body kept)
  · exact ledger.once
  · exact ledger.left
  · intro later
    obtain ⟨pending, none_, arrived, left⟩ := forgotten.fresh later
    exact ⟨pending, none_, empties arrived, left⟩

theorem deliver_of_unknown (unknown : id ∉ c.pending) (body : Members) :
    c.deliver id body = c := by
  simp [Connection.deliver, unknown]

/-- Of the requests that wait, a response is kept for its own only. -/
theorem Ledger.deliver (ledger : Ledger notes c n) (id : Nat) (body : Members) :
    Ledger (notes ++ [.response id body (c.pending.contains id)]) (c.deliver id body) n := by
  by_cases waiting : id ∈ c.pending
  · have contains : c.pending.contains id = true := by simpa using waiting
    have delivered : c.deliver id body = { c.forget id with arrived := c.arrived ++ [(id, body)] } := by
      rw [Connection.deliver, if_pos contains]
    have kept : (c.arrived ++ [(id, body)]).lookup n =
        (c.arrived.lookup n).or (if n = id then some body else none) := by
      rw [List.lookup_append, lookup_cons_if, List.lookup_nil]
    have noted : answers (notes ++ [.response id body (c.pending.contains id)]) n =
        answers notes n ++ if n = id then [body] else [] := by
      rw [answers_append, answers_response, contains]
      simp [eq_comm]
    -- Only the ledger of the request that is answered changes; it waited, so nothing was noted for it.
    by_cases own : n = id
    · subst own
      obtain ⟨none_, arrived, left⟩ := ledger.waits waiting
      rw [if_pos rfl, arrived, Option.none_or] at kept
      rw [if_pos rfl, none_, List.nil_append] at noted
      rw [delivered]
      constructor
      · intro still
        exact absurd rfl (mem_forget.mp still).2
      · intro body' here
        rw [noted, Option.some.inj (kept.symm.trans here)]
      · rw [noted]
        exact Nat.le_refl 1
      · rw [leftOver_response]
        intro is
        exact absurd is left
      · intro later
        exact absurd waiting (ledger.fresh later).1
    · rw [if_neg own, Option.or_none] at kept
      rw [if_neg own, List.append_nil] at noted
      rw [delivered]
      have forgotten := ledger.forget id
      constructor
      · rw [noted, leftOver_response, kept]
        exact forgotten.waits
      · rw [noted, kept]
        exact forgotten.holds
      · rw [noted]
        exact forgotten.once
      · rw [noted, leftOver_response]
        exact forgotten.left
      · rw [noted, leftOver_response, kept]
        exact forgotten.fresh
  · have contains : c.pending.contains id = false := by simpa using waiting
    have noted : answers (notes ++ [.response id body (c.pending.contains id)]) n = answers notes n := by
      rw [answers_append, answers_response, contains]
      simp
    rw [deliver_of_unknown waiting]
    constructor
    · rw [noted, leftOver_response]
      exact ledger.waits
    · rw [noted]
      exact ledger.holds
    · rw [noted]
      exact ledger.once
    · rw [noted, leftOver_response]
      exact ledger.left
    · rw [noted, leftOver_response]
      exact ledger.fresh

theorem Ledger.ended (ledger : Ledger notes c n) :
    Ledger (notes ++ [.ended c.pending]) { c with pending := [] } n := by
  have same : answers (notes ++ [.ended c.pending]) n = answers notes n := by
    rw [answers_append]
    exact List.append_nil _
  constructor
  · exact nofun
  · rw [same]
    exact ledger.holds
  · rw [same]
    exact ledger.once
  · rw [same, leftOver_ended]
    rintro (left | waiting)
    · exact ledger.left left
    · exact (ledger.waits waiting).1
  · rw [same, leftOver_ended]
    intro later
    obtain ⟨pending, none_, arrived, left⟩ := ledger.fresh later
    exact ⟨nofun, none_, arrived, not_or.mpr ⟨left, pending⟩⟩

end Ledger

/-- A request that did not return waits, or its response is kept, or it was left over. -/
def Tracked (notes : List Note) (c : Connection) (n : Nat) : Prop :=
  n ∈ c.pending ∨ (∃ body, c.arrived.lookup n = some body) ∨ LeftOver notes n

/-- What the caller of a request was told: that it was not sent, what its only response says, or why there
is none. -/
inductive Told (notes : List Note) (n : Nat) (method : String) : Except RequestError Json → Prop where
  | notSent : Told notes n method (.error (.notSent method))
  | lost : LeftOver notes n → Told notes n method (.error (.lost method))
  | timedOut {patience : Nat} : answers notes n = [] → ¬ LeftOver notes n →
    Told notes n method (.error (.timedOut method patience))
  | answered {body : Members} : answers notes n = [body] → Told notes n method (outcome method body)

section Later

variable {notes notes' : List Note} {c c' : Connection} {n : Nat}

/-- The books went on, and dropped one request at most: no other one that waits no more waits again, or is
answered. -/
structure Later (dropped : Option Nat) (notes : List Note) (c : Connection) (notes' : List Note)
    (c' : Connection) : Prop where
  nextId : c.nextId ≤ c'.nextId
  pending : ∀ n < c.nextId, n ∈ c'.pending → n ∈ c.pending
  answers : ∀ n, n ∉ c.pending → answers notes' n = answers notes n
  leftOver : ∀ n, n ∉ c.pending → (LeftOver notes' n ↔ LeftOver notes n)
  tracked : ∀ n, dropped ≠ some n → Tracked notes c n → Tracked notes' c' n

variable {dropped : Option Nat}

theorem Later.trans {notes'' : List Note} {c'' : Connection} (first : Later dropped notes c notes' c')
    (fewer : ∀ n ∈ c'.pending, n ∈ c.pending) (next : Later dropped notes' c' notes'' c'') :
    Later dropped notes c notes'' c'' where
  nextId := Nat.le_trans first.nextId next.nextId
  pending n old waiting :=
    first.pending n old (next.pending n (Nat.lt_of_lt_of_le old first.nextId) waiting)
  answers n settled := (next.answers n (settled ∘ fewer n)).trans (first.answers n settled)
  leftOver n settled := (next.leftOver n (settled ∘ fewer n)).trans (first.leftOver n settled)
  tracked n other tracked := next.tracked n other (first.tracked n other tracked)

theorem Later.newRequest : Later none notes c notes c.newRequest.2 where
  nextId := Nat.le_succ _
  pending n old waiting := by
    rcases List.mem_append.mp waiting with before | new
    · exact before
    · rw [List.mem_singleton.mp new] at old
      exact absurd old (Nat.lt_irrefl _)
  answers _ _ := rfl
  leftOver _ _ := Iff.rfl
  tracked _ _ tracked := tracked.imp_left (List.mem_append_left _)

/-- What happens to the books of a connection when no request begins. -/
structure Books (dropped : Option Nat) (notes : List Note) (c : Connection) (notes' : List Note)
    (c' : Connection) : Prop where
  ledger : ∀ n, Ledger notes c n → Ledger notes' c' n
  later : Later dropped notes c notes' c'
  fewer : ∀ n ∈ c'.pending, n ∈ c.pending

theorem Books.trans {notes'' : List Note} {c'' : Connection} (first : Books dropped notes c notes' c')
    (next : Books dropped notes' c' notes'' c'') : Books dropped notes c notes'' c'' where
  ledger n ledger := next.ledger n (first.ledger n ledger)
  later := first.later.trans first.fewer next.later
  fewer n waiting := first.fewer n (next.fewer n waiting)

/-- Where nothing is noted, only what is kept of requests counts. -/
theorem Books.unnoted (ledger : ∀ n, Ledger notes c n → Ledger notes c' n) (nextId : c'.nextId = c.nextId)
    (fewer : ∀ n ∈ c'.pending, n ∈ c.pending)
    (tracked : ∀ n, dropped ≠ some n → Tracked notes c n → Tracked notes c' n) : Books dropped notes c notes c' where
  ledger := ledger
  later := ⟨Nat.le_of_eq nextId.symm, fun n _ => fewer n, fun _ _ => rfl, fun _ _ => Iff.rfl, tracked⟩
  fewer := fewer

theorem Books.still (nextId : c'.nextId = c.nextId) (pending : c'.pending = c.pending)
    (arrived : c'.arrived = c.arrived) : Books none notes c notes c' := by
  refine .unnoted (fun _ ledger => ledger.congr nextId pending arrived) nextId (fun _ waiting => pending ▸ waiting) ?_
  intro n _ tracked
  rw [Tracked, pending, arrived]
  exact tracked

theorem Books.forget (id : Nat) : Books (some id) notes c notes (c.forget id) := by
  refine .unnoted (fun _ ledger => ledger.forget id) rfl (fun _ waiting => (mem_forget.mp waiting).1) ?_
  intro n other tracked
  exact tracked.imp_left fun waiting => mem_forget.mpr ⟨waiting, fun same => other (same ▸ rfl)⟩

theorem Books.takeReply (id : Nat) : Books (some id) notes c notes (c.takeReply id).2 := by
  refine .unnoted (fun _ ledger => ledger.takeReply id) rfl (fun _ waiting => (mem_forget.mp waiting).1) ?_
  intro n other tracked
  have different : n ≠ id := fun same => other (same ▸ rfl)
  have kept : (c.takeReply id).2.arrived.lookup n = c.arrived.lookup n :=
    (lookup_filter_ne c.arrived id n).trans (if_neg different)
  rw [Tracked, kept]
  exact tracked.imp_left fun waiting => mem_forget.mpr ⟨waiting, different⟩

theorem Tracked.deliver (tracked : Tracked notes c n) (id : Nat) (body : Members) :
    Tracked (notes ++ [.response id body (c.pending.contains id)]) (c.deliver id body) n := by
  rw [Tracked, leftOver_response]
  by_cases awaited : id ∈ c.pending
  · have delivered : c.deliver id body = { c.forget id with arrived := c.arrived ++ [(id, body)] } := by
      rw [Connection.deliver, if_pos (by simpa using awaited)]
    have kept : (c.arrived ++ [(id, body)]).lookup n =
        (c.arrived.lookup n).or (if n = id then some body else none) := by
      rw [List.lookup_append, lookup_cons_if, List.lookup_nil]
    rw [delivered]
    rcases tracked with waiting | ⟨old, arrived⟩ | left
    · by_cases own : n = id
      · rw [if_pos own] at kept
        cases arrived : c.arrived.lookup n with
        | none => exact .inr (.inl ⟨body, kept.trans (by rw [arrived, Option.none_or])⟩)
        | some old => exact .inr (.inl ⟨old, kept.trans (by rw [arrived, Option.some_or])⟩)
      · exact .inl (mem_forget.mpr ⟨waiting, own⟩)
    · exact .inr (.inl ⟨old, kept.trans (by rw [arrived, Option.some_or])⟩)
    · exact .inr (.inr left)
  · rw [deliver_of_unknown awaited]
    exact tracked

theorem Books.deliver (id : Nat) (body : Members) :
    Books none notes c (notes ++ [.response id body (c.pending.contains id)]) (c.deliver id body) := by
  have fewer : ∀ n ∈ (c.deliver id body).pending, n ∈ c.pending := by
    intro n waiting
    unfold Connection.deliver at waiting
    split at waiting
    · exact (mem_forget.mp waiting).1
    · exact waiting
  have nextId : (c.deliver id body).nextId = c.nextId := by
    unfold Connection.deliver
    split <;> rfl
  refine ⟨fun _ ledger => ledger.deliver id body,
    ⟨Nat.le_of_eq nextId.symm, fun n _ => fewer n, ?_, ?_, fun n _ tracked => tracked.deliver id body⟩, fewer⟩
  · intro n settled
    have other : ¬ (c.pending.contains id = true ∧ id = n) := by
      rintro ⟨waiting, rfl⟩
      exact settled (by simpa using waiting)
    rw [answers_append, answers_response, if_neg other, List.append_nil]
  · intro n _
    exact leftOver_response

theorem Books.ended : Books none notes c (notes ++ [.ended c.pending]) { c with pending := [] } := by
  have none_ : ∀ n ∈ ([] : List Nat), n ∈ c.pending := by simp
  refine ⟨fun _ ledger => ledger.ended, ⟨Nat.le_refl _, fun n _ => none_ n, ?_, ?_, ?_⟩, none_⟩
  · intro n _
    rw [answers_append]
    exact List.append_nil _
  · intro n settled
    rw [leftOver_ended]
    exact or_iff_left settled
  · intro n _ tracked
    rw [Tracked, leftOver_ended]
    rcases tracked with waiting | arrived | left
    · exact .inr (.inr (.inr waiting))
    · exact .inr (.inl arrived)
    · exact .inr (.inr (.inl left))

theorem Told.later {method : String} {r : Except RequestError Json} (told : Told notes n method r)
    (later : Later dropped notes c notes' c') (settled : n ∉ c.pending) : Told notes' n method r := by
  have left := later.leftOver n settled
  have answers := later.answers n settled
  cases told with
  | notSent => exact .notSent
  | lost ended => exact .lost (left.mpr ended)
  | timedOut none_ other => exact .timedOut (answers.trans none_) (other ∘ left.mp)
  | answered only => exact .answered (answers.trans only)

theorem Ledger.told {notes : List Note} {n : Nat} (ledger : Ledger notes c n) (tracked : Tracked notes c n)
    (method : String) (patience : Nat) : Told notes n method (verdict method patience (c.reply n)) := by
  unfold Connection.reply
  split
  · rename_i contains
    have waiting : n ∈ c.pending := by simpa using contains
    obtain ⟨none_, -, other⟩ := ledger.waits waiting
    exact .timedOut none_ other
  · rename_i contains
    split
    · rename_i body kept
      exact .answered (ledger.holds body kept)
    · rename_i none_
      rcases tracked with waiting | ⟨body, kept⟩ | left
      · exact absurd (by simpa using waiting) contains
      · cases none_.symm.trans kept
      · exact .lost left

variable {i : Nat} {s s' : Session σ} {stand stand' : ReaderStand} {jobs : List Job}

/-- What a reader hears of the server, while some requests wait. -/
def heard (waiting : List Nat) : Option Finding → List Note
  | some .ended => [.ended waiting]
  | some (.message value) =>
    match Incoming.ofJson? value with
    | some (.response id body) => [.response id body (waiting.contains id)]
    | _ => []
  | none => []

theorem Handles.books {value : Json} {s s' : Session σ} {stand : ReaderStand} {jobs : List Job}
    (handles : Handles i value s stand s' jobs) (found : s.connection? i = some c) (notes : List Note) :
    ∃ c', s'.connection? i = some c' ∧
      Books none notes c (notes ++ heard c.pending (some (.message value))) c' := by
  have same (heardNothing : heard c.pending (some (.message value)) = []) :
      Books none notes c (notes ++ heard c.pending (some (.message value))) c := by
    rw [heardNothing, List.append_nil]
    exact .still rfl rfl rfl
  cases handles with
  | ignores parsed => exact ⟨c, found, same (by rw [heard, parsed])⟩
  | acknowledges parsed => exact ⟨c, found, same (by rw [heard, parsed])⟩
  | asks parsed => exact ⟨c, found, same (by rw [heard, parsed])⟩
  | notes parsed => exact ⟨c, found, same (by rw [heard, parsed])⟩
  | logs parsed connections =>
    refine ⟨c, ?_, same (by rw [heard, parsed])⟩
    rw [connection?, connections]
    exact found
  | @delivers id body parsed =>
    refine ⟨_, connection?_of_change found, ?_⟩
    rw [heard, parsed]
    exact .deliver id body

theorem ReaderGoes.books {s s' : Session σ} {stand stand' : ReaderStand} {finding : Option Finding}
    {jobs : List Job} (goes : ReaderGoes i s c stand finding stand' s' jobs)
    (found : s.connection? i = some c) (notes : List Note) :
    ∃ c', s'.connection? i = some c' ∧ Books none notes c (notes ++ heard c.pending finding) c' := by
  cases goes with
  | @takes value rest _ _ _ next handles =>
    have unread : Books none notes c notes { c with received := rest } := .still rfl rfl rfl
    obtain ⟨c', found', books⟩ := handles.books (connection?_of_change found) notes
    exact ⟨c', found', unread.trans books⟩
  | stops => exact ⟨_, connection?_of_change found, .ended⟩
  | acknowledges =>
    refine ⟨_, connection?_of_change found, ?_⟩
    rw [heard, List.append_nil]
    unfold Connection.enqueue
    split <;> exact .still rfl rfl rfl
  | reports noted =>
    obtain ⟨events, found'⟩ := connection?_of_noted noted found
    rw [heard, List.append_nil]
    exact ⟨_, connection?_of_change found', .still rfl rfl rfl⟩
  | notes noted =>
    obtain ⟨events, found'⟩ := connection?_of_noted noted found
    rw [heard, List.append_nil]
    exact ⟨_, found', .still rfl rfl rfl⟩
  | rests =>
    rw [heard, List.append_nil]
    exact ⟨c, found, .still rfl rfl rfl⟩
  | quits =>
    rw [heard, List.append_nil]
    exact ⟨c, found, .still rfl rfl rfl⟩
  | remains =>
    rw [heard, List.append_nil]
    exact ⟨c, found, .still rfl rfl rfl⟩

end Later

section Programs

variable {i n : Nat} {method : String} {params : Option Json} {task : Task σ (Except RequestError Json)}
variable {s : Session σ} {c : Connection}

/-- A task that waits for what becomes of a request, and then says so. -/
structure Awaits (i n : Nat) (method : String) (task : Task σ (Except RequestError Json)) : Prop where
  waits : ∃ deadline next, task = .wait (.reply i n deadline) next
  takes : ∃ patience, ∀ s c, s.connection? i = some c → (System.resume task).advance s =
    (.done (verdict method patience (c.reply n)), changeConnection i (fun c => (c.takeReply n).2) s, [])

/-- A task that sends a request, and gives it up if the connection takes no more frames. -/
structure Sends (i n : Nat) (method : String) (params : Option Json)
    (task : Task σ (Except RequestError Json)) : Prop where
  waits : ∃ next, task = .wait (.room i) next
  sends : ∀ s c, s.connection? i = some c → c.writing = true →
    let stop := (System.resume task).advance s
    Awaits i n method stop.1.program ∧
      stop.2 = (enqueued i (.frame (Protocol.request n method params)) s, [])
  refused : ∀ s c, s.connection? i = some c → c.writing = false →
    (System.resume task).advance s = (.done (.error (.notSent method)), changeConnection i (·.forget n) s, [])

theorem requestWithin_begins (method : String) (params : Option Json) (patience : Nat)
    (found : s.connection? i = some c) :
    let stop := (requestWithin i method params patience).advance s
    Sends i c.nextId method params stop.1.program ∧
      stop.2 = (changeConnection i (fun c => c.newRequest.2) s, []) := by
  have new : onConnection i 0 (·.newRequest) s = (c.nextId, changeConnection i (fun c => c.newRequest.2) s) :=
    onConnection_of_found 0 _ found
  dsimp [requestWithin, send, Program.await, bind, Program.bind, Program.get, Program.modifyGet,
    Program.advance]
  rw [new]
  dsimp only
  generalize c.nextId = id
  refine ⟨⟨⟨_, rfl⟩, ?_, ?_⟩, rfl⟩
  · intro s' c' found' writing
    have connected : isConnected i s' = true := by simp [isConnected, found', writing]
    dsimp [System.resume, Program.advance, Program.Pause.program]
    rw [onConnection_enqueue, connected]
    refine ⟨⟨⟨_, _, rfl⟩, patience, ?_⟩, rfl⟩
    intro s'' c'' found''
    have taken : onConnection i .lost (·.takeReply id) s'' =
        (c''.reply id, changeConnection i (fun c => (c.takeReply id).2) s'') :=
      onConnection_of_found _ _ found''
    dsimp [System.resume, Program.advance, Program.Pause.program]
    rw [taken]
    dsimp only
    cases c''.reply id with
    | waiting => rfl
    | lost => rfl
    | arrived body =>
      dsimp only [verdict, outcome]
      cases Members.get? body "error" <;> rfl
  · intro s' c' found' closed
    have unconnected : isConnected i s' = false := by simp [isConnected, found', closed]
    have same : enqueued i (.frame (Protocol.request id method params)) s' = s' :=
      enqueued_of_closed found' closed
    dsimp [System.resume, Program.advance, Program.Pause.program]
    rw [onConnection_enqueue, unconnected, same]
    rfl

theorem request_begins (method : String) (params : Option Json) (found : s.connection? i = some c) :
    let stop := (System.resume (request i method params)).advance s
    Sends i c.nextId method params stop.1.program ∧
      stop.2 = (changeConnection i (fun c => c.newRequest.2) s, []) := by
  obtain ⟨patience, within⟩ : ∃ patience, (System.resume (request i method params)).advance s =
      (requestWithin i method params patience).advance s :=
    ⟨_, rfl⟩
  rw [within]
  exact requestWithin_begins method params patience found

end Programs

end LinterClient.Session
