import Mathlib.Data.List.Induction
import LinterClient.Proofs.Session.Notifications
import LinterClient.Proofs.Session.Progress

/-!
The settings that calls answer with.

A record of settings is built in a turn, so no migration is underway then. If nobody else writes, the
store holds what whole migrations leave.
-/

namespace LinterClient.Session

open Migration (Change Choice Recorded)

variable {σ ι : Type} [Store σ]

/-- What whole migrations make of a store, one after the other, and the writes that turn the question
off. -/
inductive Whole (start : σ) : σ → Prop where
  | start : Whole start start
  | migrated {store : σ} {r : Recorded} :
    Whole start store → RecordedIn store r → Whole start (Migration.update r store).1
  | silenced {store : σ} : Whole start store → Whole start (Store.write store silencingWrite).2

/-- What a store holds once the changes that are left are written, too. -/
def finished (resource : Option Url) (left : List Change) (store : σ) : σ :=
  left.foldl (fun store c =>
    (Store.write store (c.toWrite resource (Store.inspect store c.key resource))).2) store

theorem update_store (r : Recorded) (store : σ) :
    (Migration.update r store).1 = finished r.resource r.changes store := by
  refine (List.foldl_hom Prod.fst fun state c => ?_).symm
  obtain ⟨store, failures⟩ := state
  simp only [Migration.writeChange]
  split <;> rfl

/-- What the stage of a call says of the store: once the migration is written, it is whole. -/
def Stage.Leads (start store : σ) : Stage → Prop
  | .asking _ r | .answered _ r => Whole start store ∧ RecordedIn store r
  | .writing resource left => Whole start (finished resource left store)
  | .attempting w resource left => Whole start (finished resource left (Store.write store w).2)
  | _ => Whole start store

def Leads (start store : σ) : Option Stage → Prop
  | some stage => stage.Leads start store
  | none => Whole start store

theorem leads_rule (start : σ) : TurnRule fun s : Session σ => Leads start s.store where
  same same _ leads := by rwa [same]
  enter leads := leads
  leave ended leads := by
    obtain rfl | rfl := ended
    · exact leads
    · exact leads
  act {s s' stage stage'} act leads := by
    cases act with
    | ask allowed recorded => exact ⟨leads, recorded⟩
    | hear => exact leads
    | dismiss => exact leads.1
    | @start stage s r starts some =>
      show Whole start (finished r.resource r.changes s.store)
      rw [← update_store]
      obtain rfl | ⟨rfl, recorded⟩ := starts
      · exact leads.1.migrated leads.2
      · exact .migrated leads recorded
    | write => exact leads
    | finish =>
      show Whole start (runPending s).store
      rw [runPending_store]
      exact leads
    | close =>
      show Whole start (runPending s).store
      rw [runPending_store]
      exact leads
    | silence => exact .silenced leads
  rest rest leads := by
    cases rest with
    | question => exact leads
    | silencing => exact leads.1
    | attempt => exact leads

section Roles

variable {s s' : Session σ} {roles roles' : ι → Role} {i : ι} {r r' r₀ r₁ : Role}

variable [DecidableEq ι]

/-- If others leave the store alone, only migrations and refusals of the question change it. -/
theorem leads_stable (start : σ) :
    Stable (fun f => ∀ s, (f s).store = s.store)
      (fun (s : Session σ) (roles : ι → Role) => Held (Leads start s.store) roles) where
  wake ordered held wake := (leads_rule start).keeps_wake held ordered.turns (update_others _ _ _) rfl
    (Function.update_self _ _ _) wake
  act ordered held act := (leads_rule start).keeps_act held ordered.turns (update_others _ _ _) rfl
    (Function.update_self _ _ _) act
  rest ordered held rest := (leads_rule start).keeps_rest held ordered.turns (update_others _ _ _) rfl
    (Function.update_self _ _ _) rest
  answer m a _ held := by rwa [answerMessage_store]
  changed held := by rwa [configurationChanged_store]
  aside same _ held := by rwa [same]

omit [DecidableEq ι] in
theorem Held.whole {calls : ι → Call} {crew : Calls σ ι} {start : σ}
    (held : Held (Leads start crew.state.store) roles) (keeping : Keeping calls crew roles)
    (free : ¬ crew.Underway) : Whole start crew.state.store := by
  rw [keeping.underway_iff] at free
  by_cases nobody : ∀ i t stage, (roles i).place ≠ .holding t stage
  · exact held.free nobody
  · push Not at nobody
    obtain ⟨i, t, stage, place⟩ := nobody
    have leads := held.held i t stage place
    cases stage with
    | writing => exact absurd ⟨i, by rw [place]; trivial⟩ free
    | attempting => exact absurd ⟨i, by rw [place]; trivial⟩ free
    | asking => exact leads.1
    | answered => exact leads.1
    | _ => exact leads

/-- Records are built when the turn is given back, and the call does not take it again before it waits. -/
theorem acts_built (acts : conduct.Acts r₀ s r₁ s') :
    r₁.built = r₀.built ∧ (r₁.place.Holds → r₀.place.Holds) ∨
      r₀.place.Holds ∧ ¬ r₁.place.Holds ∧
        ∀ e ∈ r₁.built, e ∈ r₀.built ∨ e.2 = settingsNow s' e.1 := by
  induction acts with
  | none => exact .inl ⟨rfl, id⟩
  | more _ act ih =>
    obtain ⟨same, holds⟩ | ⟨held, outside, built⟩ := ih
    · cases act with
      | aside => exact .inl ⟨same, holds⟩
      | proceed => exact .inl ⟨same, fun _ => holds trivial⟩
      | leave ended now =>
        refine .inr ⟨holds trivial, id, fun e member => ?_⟩
        obtain old | new := List.mem_append.mp member
        · exact .inl (same ▸ old)
        · exact .inr (now e new)
      | _ => exact .inl ⟨same, False.elim⟩
    · cases act with
      | aside alike =>
        refine .inr ⟨held, outside, fun e member => (built e member).imp_right fun now => ?_⟩
        rw [now, settingsNow, settingsNow, alike.store, alike.failures, alike.documents]
      | proceed => exact absurd trivial outside
      | leave => exact absurd trivial outside
      | _ => exact .inr ⟨held, id, built⟩

omit [DecidableEq ι] in
theorem Rest.same {on : Wait} (rest : Rest r s on r') :
    r'.built = r.built ∧ (r'.place.Holds → r.place.Holds) := by
  cases rest with
  | pause => exact ⟨rfl, fun _ => trivial⟩
  | _ => exact ⟨rfl, id⟩

omit [Store σ] [DecidableEq ι] in
theorem Wake.built {on : Wait} (wake : Wake r on s r') : r'.built = r.built := by
  cases wake <;> rfl

/-- A call that goes on has the records that it had, and those that the session has now. Then no
migration is underway. -/
theorem Moved.built {m : Move σ ι} (ordered : Ordered s roles) (moved : Moved s roles m s' roles')
    (j : ι) : ∀ e ∈ (roles' j).built, e ∈ (roles j).built ∨
      m = .go j ∧ e.2 = settingsNow s' e.1 ∧ ∀ k, ¬ (roles' k).place.Writes := by
  intro e member
  cases moved with
  | @goes i r₀ r₁ r s' woken acts rested =>
    have self : Function.update roles i r i = r := Function.update_self i r roles
    by_cases mine : j = i
    · subst mine
      have before : r₀.built = (roles j).built := by
        obtain rfl | ⟨on, wake⟩ := woken
        · rfl
        · exact wake.built
      have after : r.built = r₁.built ∧ (r.place.Holds → r₁.place.Holds) := by
        obtain ⟨rfl, -⟩ | ⟨on, rest⟩ := rested
        · exact ⟨rfl, id⟩
        · exact rest.same
      rw [self, after.1] at member
      obtain ⟨same, -⟩ | ⟨held, outside, built⟩ := acts_built acts
      · exact .inl (by rwa [same, before] at member)
      · refine (built e member).imp (fun old => before ▸ old) fun now => ⟨rfl, now, fun k writes => ?_⟩
        by_cases same : k = j
        · subst same
          rw [self] at writes
          exact outside (after.2 writes.holds)
        · rw [Function.update_of_ne same] at writes
          refine same ((ordered.woken woken).turns.alone ?_ ?_)
          · rw [Function.update_of_ne same]
            exact writes.holds
          · rwa [Function.update_self]
    · rw [Function.update_of_ne mine] at member
      exact .inl member
  | _ => exact .inl member

end Roles

section Runs

variable [DecidableEq ι] {calls : ι → Call} {crew : Calls σ ι} {roles : ι → Role}

/-- Every record of a call was what the session had at the end of one of its strides. -/
theorem Keeping.records (keeping : Keeping calls crew roles) (new : ∀ i, (roles i).built = [])
    (moves : List (Move σ ι)) :
    ∃ roles', Keeping calls (crew.after moves) roles' ∧
      ∀ i, ∀ e ∈ (roles' i).built, ∃ earlier, earlier ++ [.go i] <+: moves ∧
        let now := crew.after (earlier ++ [.go i])
        ¬ now.Underway ∧ e.2 = settingsNow now.state e.1 := by
  -- Only the call that made the last move can have a record that it did not have before.
  induction moves using List.reverseRecOn with
  | nil => exact ⟨roles, keeping, fun i e member => by simp [new i] at member⟩
  | append_singleton moves m ih =>
    obtain ⟨roles', keeping', built⟩ := ih
    obtain ⟨roles'', keeping'', moved⟩ := keeping'.move m
    have last : crew.after (moves ++ [m]) = (crew.after moves).move m := by
      rw [Calls.after, List.foldl_append]
      rfl
    refine ⟨roles'', by rwa [last], fun i e member => ?_⟩
    obtain old | ⟨rfl, now, quiet⟩ := moved.built keeping'.ordered i e member
    · obtain ⟨earlier, early, was⟩ := built i e old
      exact ⟨earlier, early.trans (List.prefix_append moves [m]), was⟩
    · refine ⟨moves, List.prefix_refl _, ?_⟩
      rw [last]
      refine ⟨fun underway => ?_, now⟩
      obtain ⟨k, writes⟩ := keeping''.underway_iff.mp underway
      exact quiet k writes

/-- Nobody else writes to the store. -/
def Undisturbed (moves : List (Move σ ι)) : Prop :=
  ∀ f keeps, .aside f keeps ∈ moves → ∀ s, (f s).store = s.store

/-- A record that a call built in one of its strides: it is what the session held after that, when no
migration had made some of its attempts and not all. If nobody else had written to the store, it was what
whole migrations leave. -/
def Calls.Built (crew : Calls σ ι) (moves : List (Move σ ι)) (i : ι) (uri : Url)
    (record : Settings.Record) : Prop :=
  ∃ earlier, earlier ++ [.go i] <+: moves ∧
    let now := crew.after (earlier ++ [.go i])
    ¬ now.Underway ∧ (Undisturbed earlier → Whole crew.state.store now.state.store) ∧
      record = settingsNow now.state uri

/-- What a call answers at its end. -/
def Calls.Answers (crew : Calls σ ι) (moves : List (Move σ ι)) (i : ι) : Call → Answer → Prop
  | .settings uri, answer => ∃ record, answer = .record record ∧ crew.Built moves i uri record
  | .configuration items, answer => ∃ values, answer = .values values ∧
    List.Forall₂ (fun item value =>
      (value = .null ↔
        item.sectionName ≠ none ∨ (item.scopeUri.bind fun u => (Url.parse u).toOption) = none) ∧
      ∀ uri, itemResource item = some uri →
        ∃ record, value = record.toJson ∧ crew.Built moves i uri record) items values
  | .migrate _, answer => ∃ outcome, answer = .outcome outcome
  | .announce _ _ _, answer => answer = .told

omit [Store σ] [DecidableEq ι] in
theorem itemResource_eq_none_iff (item : Protocol.ConfigurationItem) :
    itemResource item = none ↔
      item.sectionName ≠ none ∨ (item.scopeUri.bind fun u => (Url.parse u).toOption) = none := by
  obtain ⟨scope, sectionName⟩ := item
  cases sectionName with
  | some name => simp [itemResource]
  | none => cases scope <;> simp [itemResource]

omit [Store σ] [DecidableEq ι] in
theorem record_toJson_ne_null (record : Settings.Record) : record.toJson ≠ .null := by
  simp [Settings.Record.toJson, Settings.Record.written, Json.sorted]

omit [Store σ] [DecidableEq ι] in
theorem AnswersItem.null_iff {built : List (Url × Settings.Record)} {item : Protocol.ConfigurationItem}
    {value : Json} (answers : AnswersItem built item value) :
    value = .null ↔ itemResource item = none := by
  unfold AnswersItem at answers
  split at answers
  · rename_i uri resource
    obtain ⟨record, -, rfl⟩ := answers
    exact iff_of_false (record_toJson_ne_null record) (by simp [resource])
  · rename_i resource
    exact iff_of_true answers resource

omit [Store σ] [DecidableEq ι] in
theorem AnswersItem.record {built : List (Url × Settings.Record)} {item : Protocol.ConfigurationItem}
    {value : Json} (answers : AnswersItem built item value) {uri : Url}
    (resource : itemResource item = some uri) :
    ∃ record, (uri, record) ∈ built ∧ value = record.toJson := by
  unfold AnswersItem at answers
  rwa [resource] at answers

omit [DecidableEq ι] in
theorem Keeping.ends (keeping : Keeping calls crew roles) {i : ι} {answer : Answer}
    (ended : (crew.tasks i).answer? = some answer) : Ends (calls i) answer (roles i) := by
  have stands := keeping.stands i
  generalize crew.tasks i = p at ended stands
  cases p with
  | done a =>
    cases ended
    cases stands with
    | ready _ keeps => exact keeps crew.state
  | _ => cases ended

/-- Calls answer with what the session held while no migration was underway, one value for each item, and
every call can be brought to its end. -/
theorem answers_consistent (calls : ι → Call) (store : σ) (memento : Memento)
    (launch : Option Launch) (canLaunch : Launch → Except LaunchError Unit) (processId : Nat)
    (moves : List (Move σ ι)) (i : ι) :
    let start := withCalls (.new store memento launch canLaunch processId) calls
    let crew := start.after moves
    (∀ answer, (crew.tasks i).answer? = some answer → start.Answers moves i (calls i) answer) ∧
      crew.CanReach fun final => (final.tasks i).answer?.isSome := by
  intro start crew
  have begins := Keeping.start calls store memento launch canLaunch processId
  obtain ⟨roles, keeping, built⟩ := begins.records (fun _ => rfl) moves
  refine ⟨fun answer ended => ?_, keeping.completes i⟩
  obtain ⟨-, answers⟩ := keeping.ends ended
  have was : ∀ uri record, (uri, record) ∈ (roles i).built → start.Built moves i uri record := by
    intro uri record member
    obtain ⟨earlier, early, free, now⟩ := built i _ member
    refine ⟨earlier, early, free, fun alone => ?_, now⟩
    have whole : Held (Leads store start.state.store) fun _ : ι => ⟨.idle, []⟩ :=
      ⟨fun _ _ _ place => by simp at place, fun _ => .start⟩
    obtain ⟨roles', keeping', held⟩ := (leads_stable store).after begins whole (earlier ++ [.go i])
      fun f keeps member => alone f keeps (by simpa using member)
    exact held.whole keeping' free
  generalize calls i = call at answers
  cases call with
  | settings uri =>
    cases answer with
    | record record => exact ⟨record, rfl, was uri record answers⟩
    | _ => exact absurd answers id
  | configuration items =>
    cases answer with
    | values values =>
      refine ⟨values, rfl, answers.imp fun item value one => ⟨?_, fun uri resource => ?_⟩⟩
      · rw [one.null_iff, itemResource_eq_none_iff]
      · obtain ⟨record, member, same⟩ := one.record resource
        exact ⟨record, same, was uri record member⟩
    | _ => exact absurd answers id
  | migrate resource =>
    cases answer with
    | outcome outcome => exact ⟨outcome, rfl⟩
    | _ => exact absurd answers id
  | announce level text action =>
    cases answer with
    | told => rfl
    | _ => exact absurd answers id

end Runs

/-- A batch of two items and a migration without a question. -/
def batchAndMigration : Bool → Call
  | true => .configuration [⟨none, some "editor"⟩, ⟨some "file:///page.html", none⟩]
  | false => .migrate none

def batchCrew : Calls MemoryStore Bool :=
  withCalls (.new legacyStore .inMemory none (fun _ => .error .noLaunch) 0) batchAndMigration

/-- The batch waits while the migration makes its two attempts. -/
theorem answers_consistent_batch :
    let moves : List (Move MemoryStore Bool) :=
      [.go false, .go true, .go false, .go true, .go false, .go false, .go true]
    ∃ answer, ((batchCrew.after moves).tasks true).answer? = some answer ∧
      batchCrew.Answers moves true (batchAndMigration true) answer := by
  intro moves
  have ended : ((batchCrew.after moves).tasks true).answer?.isSome = true := by decide +kernel
  obtain ⟨answer, ended⟩ := Option.isSome_iff_exists.mp ended
  have consistent := answers_consistent batchAndMigration legacyStore .inMemory none
    (fun _ => .error .noLaunch) 0 moves true
  exact ⟨answer, ended, consistent.1 answer ended⟩

end LinterClient.Session
