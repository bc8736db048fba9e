import LinterClient.Proofs.Session.Deeds
import LinterClient.Proofs.Session.Traffic

/-!
Requests and responses belong together.

Whatever happens over a connection, requests are kept apart by their ids, and each returns at most once,
with the only response that came for it while it waited.
-/

namespace LinterClient.Session

open Json (Members)
open Protocol (Incoming)

variable {σ κ : Type} {i : Nat}

/-- What is true of all requests over a connection at any time. -/
structure Correlated (what : κ → String × Option Json) (ids : κ → Option Nat) (t : Traffic σ κ)
    (c : Connection) : Prop where
  distinct : ∀ k k' n, ids k = some n → ids k' = some n → k = k'
  /-- A request hands over one frame at most, under its own id. -/
  sent : ∀ k, t.handed k = [] ∨
    ∃ n, ids k = some n ∧ t.handed k = [Protocol.request n (what k).1 (what k).2]
  /-- As long as there are ids of 64 bits, no two frames have the same one. -/
  apart : c.nextId ≤ 1 <<< 64 → ∀ k k', ∀ f ∈ t.handed k, ∀ f' ∈ t.handed k',
    f.get? "id" = f'.get? "id" → k = k'
  /-- Of all responses with an id, at most one comes while its request waits. -/
  once : ∀ n, (answers t.notes n).length ≤ 1
  /-- A request that returned is forgotten, and was told what became of it. -/
  returned : ∀ k r, t.calls k = .done r →
    ∃ n, ids k = some n ∧ n ∉ c.pending ∧ Told t.notes n (what k).1 r
  waiting : ∀ n ∈ c.pending, ∃ k, ids k = some n ∧ ∀ r, t.calls k ≠ .done r
  /-- A request that waited when the server had nothing more to say fails. -/
  leftOver : ∀ k n r, ids k = some n → LeftOver t.notes n → t.calls k = .done r →
    r = .error (.lost (what k).1) ∨ r = .error (.notSent (what k).1)
  /-- A request for which a response came while it waited returns with that. -/
  answered : ∀ k n body r, ids k = some n → answers t.notes n = [body] → t.calls k = .done r →
    r = outcome (what k).1 body ∨ r = .error (.notSent (what k).1)

section Correlated

variable {what : κ → String × Option Json} {ids : κ → Option Nat} {t : Traffic σ κ} {c : Connection}

theorem get?_id_request (n : Nat) (method : String) (params : Option Json) :
    (Protocol.request n method params).get? "id" = some (.ofNat n) := by
  cases params with
  | none => exact Json.get?_ofMembers _ _
  | some params => exact Json.get?_ofMembers _ _

theorem ofNat_inj {n n' : Nat} (small : n < 1 <<< 64) (small' : n' < 1 <<< 64)
    (same : Json.ofNat n = Json.ofNat n') : n = n' := by
  have inRange {n : Nat} (small : n < 1 <<< 64) : Json.InRange n := by
    have bound : (1 <<< 64 : Nat) = 18446744073709551616 := rfl
    constructor <;> omega
  have number {n : Nat} (small : n < 1 <<< 64) : Json.ofNat n = .num (.int n (inRange small)) := by
    rw [Json.ofNat, Json.ofInt, Json.ofInt?, dif_pos (inRange small)]
    rfl
  rw [number small, number small'] at same
  injection same with same
  injection same with same
  exact Int.ofNat.inj same

theorem Standing.frames {notes : List Note} {method : String} {params : Option Json} {id : Option Nat}
    {frames : List Json} {task : Task σ (Except RequestError Json)}
    (standing : Standing i notes c method params id frames task) :
    frames = [] ∨ ∃ n, id = some n ∧ frames = [Protocol.request n method params] := by
  cases standing with
  | unstarted => exact .inl rfl
  | sends => exact .inl rfl
  | @awaits n => exact .inr ⟨n, rfl, rfl⟩
  | @returned n _ _ _ _ atMost =>
    rcases atMost with none_ | one
    · exact .inl none_
    · exact .inr ⟨n, rfl, one⟩

theorem Standing.told {notes : List Note} {method : String} {params : Option Json} {id : Option Nat}
    {frames : List Json} {task : Task σ (Except RequestError Json)} {r : Except RequestError Json}
    (standing : Standing i notes c method params id frames task) (done : task = .done r) :
    ∃ n, id = some n ∧ n ∉ c.pending ∧ Told notes n method r := by
  cases standing with
  | unstarted => cases done
  | sends _ _ sends =>
    obtain ⟨next, waits⟩ := sends.waits
    cases waits.symm.trans done
  | awaits _ _ awaits =>
    obtain ⟨deadline, next, waits⟩ := awaits.waits
    cases waits.symm.trans done
  | @returned n _ _ _ settled _ told =>
    cases done
    exact ⟨n, rfl, settled, told⟩

theorem Paired.correlated (paired : Paired i what ids t c) : Correlated what ids t c where
  distinct := paired.distinct
  sent k := (paired.standing k).frames
  apart := by
    intro few k k' f member f' member' same
    have frame {k : κ} {f : Json} (member : f ∈ t.handed k) :
        ∃ n < 1 <<< 64, ids k = some n ∧ f.get? "id" = some (.ofNat n) := by
      rcases (paired.standing k).frames with none_ | ⟨n, id, one⟩
      · rw [none_] at member
        cases member
      · rw [one, List.mem_singleton] at member
        rw [member, get?_id_request]
        exact ⟨n, Nat.lt_of_lt_of_le (paired.used id) few, id, rfl⟩
    obtain ⟨n, small, id, is⟩ := frame member
    obtain ⟨n', small', id', is'⟩ := frame member'
    rw [is, is', Option.some_inj] at same
    rw [← ofNat_inj small small' same] at id'
    exact paired.distinct k k' n id id'
  once n := (paired.ledger n).once
  returned k r done := (paired.standing k).told done
  waiting := paired.owned
  leftOver := by
    intro k n r id left done
    obtain ⟨n', id', settled, told⟩ := (paired.standing k).told done
    rw [← Option.some.inj (id.symm.trans id')] at told
    cases told with
    | notSent => exact .inr rfl
    | lost => exact .inl rfl
    | timedOut _ other => exact absurd left other
    | answered only => cases only.symm.trans ((paired.ledger n).left left)
  answered := by
    intro k n body r id answer done
    obtain ⟨n', id', settled, told⟩ := (paired.standing k).told done
    rw [← Option.some.inj (id.symm.trans id')] at told
    cases told with
    | notSent => exact .inr rfl
    | lost left => cases answer.symm.trans ((paired.ledger n).left left)
    | timedOut none_ => cases answer.symm.trans none_
    | answered only =>
      cases answer.symm.trans only
      exact .inl rfl

variable [Host σ] [DecidableEq κ] (handler : String → Json → Task σ (Except Protocol.Error Json))

/-- A request that returned does not return again. -/
theorem calls_after {k : κ} {r : Except RequestError Json} (done : t.calls k = .done r)
    (events : List (Event σ κ i)) : (t.after handler events).calls k = .done r := by
  -- By induction on the events: only a request itself changes its task.
  induction events generalizing t with
  | nil => exact done
  | cons event rest ih =>
    apply ih
    cases event with
    | aside => exact done
    | read =>
      rw [Traffic.move]
      split
      · exact done
      · exact done
    | call k' =>
      rw [Traffic.move]
      split
      · by_cases same : k = k'
        · subst same
          rw [done]
          exact Function.update_self _ _ _
        · exact (Function.update_of_ne same _ _).trans done
      · exact done

theorem Paired.fails (paired : Paired i what ids t c) {k : κ} {n deadline : Nat}
    {next : Task σ (Except RequestError Json)} (left : LeftOver t.notes n)
    (waits : t.calls k = .wait (.reply i n deadline) next) :
    (t.move handler (.call k : Event σ κ i)).calls k = .done (.error (.lost (what k).1)) := by
  have own := paired.standing k
  generalize known : ids k = id at own
  generalize t.handed k = frames at own
  rw [waits] at own
  cases own with
  | sends _ _ sends =>
    obtain ⟨next', waits'⟩ := sends.waits
    cases waits'
  | awaits _ _ awaits =>
    obtain ⟨deadline', next', waits'⟩ := awaits.waits
    cases waits'
    have none_ : answers t.notes n = [] := (paired.ledger n).left left
    have forgotten : n ∉ c.pending := fun waiting => ((paired.ledger n).waits waiting).2.2 left
    have contains : c.pending.contains n = false := by simpa using forgotten
    have empty : c.arrived.lookup n = none := by
      cases kept : c.arrived.lookup n with
      | none => rfl
      | some body => cases none_.symm.trans ((paired.ledger n).holds body kept)
    have lost : c.reply n = .lost := by
      rw [Connection.reply, contains, empty]
      rfl
    have goes_on : System.enabled (jobRules handler) t.session (t.calls k) = true := by
      have answered : ((t.session.connection? i).all fun c => !c.pending.contains n) = true := by
        rw [paired.found, Option.all_some, contains]
        rfl
      rw [waits]
      show (decide (deadline ≤ t.session.clock) ||
        (t.session.connection? i).all fun c => !c.pending.contains n) = true
      rw [answered, Bool.or_true]
    obtain ⟨patience, takes⟩ := awaits.takes
    have takes := takes t.session c paired.found
    rw [lost, verdict] at takes
    rw [Traffic.move, if_pos goes_on, waits, takes]
    exact Function.update_self _ _ _

omit [Host σ] in
/-- A response leaves the other requests alone. -/
theorem reply_deliver (id : Nat) (body : Members) {n : Nat} (other : n ≠ id) :
    (c.deliver id body).reply n = c.reply n := by
  unfold Connection.deliver
  split
  · have pending : (c.forget id).pending.contains n = c.pending.contains n := by
      rw [Bool.eq_iff_iff, List.contains_iff_mem, List.contains_iff_mem, mem_forget]
      exact and_iff_left other
    have arrived : (c.arrived ++ [(id, body)]).lookup n = c.arrived.lookup n := by
      rw [List.lookup_append, lookup_cons_if, if_neg other, List.lookup_nil, Option.or_none]
    unfold Connection.reply
    dsimp only
    rw [pending, arrived]
  · rfl

omit [Host σ] in
theorem hasNext_of_finding {s : Session σ} (found : s.connection? i = some c) {finding : Finding}
    (finds : finding? i (reader i) s = some finding) : c.hasNext = true := by
  rw [finding?_idle found] at finds
  unfold Connection.hasNext
  cases abandoned : c.abandoned with
  | true => rfl
  | false =>
    rw [abandoned] at finds
    cases next : c.next with
    | wait =>
      rw [next] at finds
      cases finds
    | _ => rfl

theorem Paired.responds (paired : Paired i what ids t c) {value : Json} {id : Nat} {body : Members}
    (finds : finding? i t.reader t.session = some (.message value))
    (parsed : Incoming.ofJson? value = some (.response id body)) :
    ∃ rest, let read : Connection := { c with received := rest }
      (t.move handler (.read : Event σ κ i)).session =
          changeConnection i (fun _ => read.deliver id body) t.session ∧
        (id ∉ c.pending → read.deliver id body = read) ∧
          ∀ n ≠ id, (read.deliver id body).reply n = c.reply n := by
  obtain ⟨stand, stands⟩ := paired.reader
  obtain ⟨stand', -, goes⟩ := reader_goes handler stand paired.found
  have waits : (stand.task i : Task σ (Option Job)) = Session.reader i ∧ stand = .idle := by
    rw [stands] at finds
    cases stand with
    | idle => exact ⟨rfl, rfl⟩
    | _ => cases finds
  obtain ⟨reads, idle⟩ := waits
  rw [stands, reads] at finds
  have goes_on : System.enabled (jobRules handler) t.session t.reader = true := by
    have found : (t.session.connection? i).all (·.hasNext) = true := by
      rw [paired.found, Option.all_some, hasNext_of_finding paired.found finds]
    rw [stands, reads]
    exact found
  rw [Traffic.move, if_pos goes_on, stands]
  subst idle
  rw [reads] at goes
  rw [reads]
  generalize (System.resume (Session.reader i)).advance t.session = stop at goes ⊢
  obtain ⟨pause, s', jobs⟩ := stop
  dsimp only at goes ⊢
  rw [finds] at goes
  cases goes with
  | @takes _ rest _ _ _ next handles =>
    refine ⟨rest, ?_, ?_, fun n other => reply_deliver id body other⟩
    rotate_left
    · intro unknown
      apply deliver_of_unknown
      exact unknown
    cases handles with
    | delivers is =>
      cases is.symm.trans parsed
      exact changeConnection_twice paired.found _ _
    | ignores is => cases is.symm.trans parsed
    | acknowledges is => cases is.symm.trans parsed
    | asks is => cases is.symm.trans parsed
    | logs is => cases is.symm.trans parsed
    | notes is => cases is.symm.trans parsed

/-- Whatever happens over a connection, and in whatever order: requests are kept apart by their ids, and
each returns once at most, with the only response that came for it while it waited. Other responses
change nothing, and a request that waits when the server has nothing more to say fails. -/
theorem responses_correlate (s : Session σ) (requestTimeout : Nat) (process : ServerProcess)
    (what : κ → String × Option Json) (events : List (Event σ κ s.connections.length)) :
    let i := s.connections.length
    let t := (Traffic.start s requestTimeout process what).after handler events
    ∃ c, t.session.connection? i = some c ∧ (∃ ids, Correlated what ids t c) ∧
      (∀ k r, t.calls k = .done r → ∀ later : List (Event σ κ i),
        (t.after handler later).calls k = .done r) ∧
      (∀ k n deadline next, LeftOver t.notes n → t.calls k = .wait (.reply i n deadline) next →
        (t.move handler (.call k : Event σ κ i)).calls k = .done (.error (.lost (what k).1))) ∧
      ∀ value id body, finding? i t.reader t.session = some (.message value) →
        Incoming.ofJson? value = some (.response id body) →
          ∃ rest, let read : Connection := { c with received := rest }
            (t.move handler (.read : Event σ κ i)).session =
                changeConnection i (fun _ => read.deliver id body) t.session ∧
              (id ∉ c.pending → read.deliver id body = read) ∧
                ∀ n ≠ id, (read.deliver id body).reply n = c.reply n := by
  intro i t
  obtain ⟨ids, c, paired⟩ := (Paired.start s requestTimeout process what).after handler events
  refine ⟨c, paired.found, ⟨ids, paired.correlated⟩, ?_, ?_, ?_⟩
  · intro k r done later
    exact calls_after handler done later
  · intro k n deadline next left waits
    exact paired.fails handler left waits
  · intro value id body finds parsed
    exact paired.responds handler finds parsed

end Correlated

/-- The server writes frames, and then ends. -/
def Event.lastWords {σ κ : Type} {i : Nat} (frames : List Json) : Event σ κ i :=
  .aside (changeConnection i fun c =>
    { c with received := c.received ++ frames.flatMap Framing.encode, outputClosed := true })
    fun _ _ found => ⟨_, connection?_of_change found, rfl, rfl, rfl⟩

/-- The second request gets the first of its two responses, and the first request gets none. -/
example :
    let s : Session MemoryStore := .new emptyStore .inMemory none (fun _ => .ok ()) 0
    let response (id : Nat) (result : String) : Json := Protocol.response (.ofNat id) (.ok (.str result))
    let events : List (Event MemoryStore Bool 0) :=
      [.call true, .call false, .call false, .call true,
        .lastWords [response 2 "once", response 2 "again", response 3 "never asked"],
        .read, .read, .read, .read, .call true, .call false]
    let t := (Traffic.start s 1000 .none fun _ : Bool => ("eslint/probe", none)).after handle events
    (t.calls true).answer? = some (.error (.lost "eslint/probe")) ∧
      (t.calls false).answer? = some (.ok (.str "once")) := by
  decide +kernel

end LinterClient.Session
