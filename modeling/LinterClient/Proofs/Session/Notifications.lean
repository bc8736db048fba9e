import LinterClient.Proofs.Session.Progress

/-!
When the client's own task is told that the configuration changed.

While a migration writes, it is told nothing; after the last attempt it is told once, however often the
configuration changed meanwhile. At all other times it is told at once.
-/

namespace LinterClient.Session

open Migration (Change Choice Recorded)

variable {σ ι : Type} [Store σ] {s s' : Session σ} {roles roles' : ι → Role} {i : ι}
variable {stage stage' : Stage} {r r' r₀ r₁ : Role}

/-- Where a call stands from the beginning of its migration to the end of its last attempt. -/
def Place.Writes : Place → Prop
  | .holding _ (.writing _ _) | .holding _ (.attempting _ _ _) => True
  | _ => False

/-- Where a call stands from the end of its last attempt on, until it has the turn again. -/
def Place.Past : Place → Prop
  | .holding _ .ending | .holding _ .leaving => True
  | .holding _ _ => False
  | _ => True

/-- Where a call stands that is not about to end a migration before it waits again. -/
def Place.Early : Place → Prop
  | .holding _ (.writing _ []) | .holding _ (.attempting _ _ _) => False
  | _ => True

/-- What the next thing that a call does tells the client's own task. -/
def Place.tells : Place → List ClientCommand
  | .holding _ (.writing _ []) => [.configurationChanged]
  | _ => []

def Kept (s : Session σ) (r : Role) : Prop :=
  ∀ t stage, r.place = .holding t stage → s.migration.inFlight = stage.inFlight

theorem Stage.Act.commands (act : stage.Act s stage' s') (kept : s.migration.inFlight = stage.inFlight)
    (t : Nat) : s'.commands = s.commands ++ (Place.holding t stage).tells := by
  cases act with
  | start starts => obtain rfl | ⟨rfl, -⟩ := starts <;> exact (List.append_nil _).symm
  | finish => simp [runPending, kept, Stage.inFlight, runContinuation, enqueue, Place.tells]
  | close => simp [endUpdate, runPending, kept, Stage.inFlight, Place.tells]
  | _ => exact (List.append_nil _).symm

theorem Act.commands (act : Act r s r' s') (kept : Kept s r) :
    s'.commands = s.commands ++ r.place.tells ∨ r' = r ∧ s'.commands = s.commands := by
  cases act with
  | aside alike => exact .inr ⟨rfl, alike.commands⟩
  | @proceed t stage stage' b s s' act => exact .inl (act.commands (kept t stage rfl) t)
  | leave ended => obtain rfl | rfl := ended <;> exact .inl (List.append_nil _).symm
  | _ => exact .inl (List.append_nil _).symm

omit [Store σ] in
theorem tells_of_early {p : Place} (early : p.Early) : p.tells = [] := by
  unfold Place.tells
  split
  · exact absurd early id
  · rfl

theorem Act.of_early (act : Act r s r' s') (kept : Kept s r) (early : r.place.Early) :
    r'.place.Early ∧ s'.commands = s.commands := by
  refine ⟨?_, ?_⟩
  · cases act with
    | aside => exact early
    | proceed act =>
      cases act with
      | @start stage s r starts some =>
        revert some
        cases r.changes with
        | nil => exact fun some => absurd rfl some
        | cons c left => exact fun _ => trivial
      | write => exact absurd early id
      | finish => exact absurd early id
      | _ => exact trivial
    | _ => exact trivial
  · obtain told | ⟨-, same⟩ := act.commands kept
    · rwa [tells_of_early early, List.append_nil] at told
    · exact same

omit [Store σ] in
theorem Place.Past.early {p : Place} (past : p.Past) : p.Early := by
  unfold Place.Early
  split
  · exact past
  · exact past
  · trivial

theorem Act.of_past (act : Act r s r' s') (kept : Kept s r) (past : r.place.Past) :
    r'.place.Past ∧ s'.commands = s.commands := by
  refine ⟨?_, (act.of_early kept past.early).2⟩
  cases act with
  | aside => exact past
  | proceed act =>
    cases act with
    | start starts => obtain rfl | ⟨rfl, -⟩ := starts <;> exact absurd past id
    | close => exact trivial
    | _ => exact absurd past id
  | _ => exact trivial

theorem Act.of_writes (act : Act r s r' s') (kept : Kept s r) (writes : r.place.Writes) :
    r'.place.Writes ∧ s'.commands = s.commands ∨
      r'.place.Past ∧ s'.commands = s.commands ++ [.configurationChanged] := by
  cases act with
  | aside alike => exact .inl ⟨writes, alike.commands⟩
  | @proceed t stage stage' b s s' act =>
    have told := act.commands (kept t stage rfl) t
    cases act with
    | start starts => obtain rfl | ⟨rfl, -⟩ := starts <;> exact absurd writes id
    | write => exact .inl ⟨trivial, rfl⟩
    | finish => exact .inr ⟨trivial, told⟩
    | _ => exact absurd writes id
  | leave ended => obtain rfl | rfl := ended <;> exact absurd writes id
  | _ => exact absurd writes id

section Strides

variable [DecidableEq ι]

omit [Store σ] in
theorem Ordered.kept (ordered : Ordered s (Function.update roles i r)) : Kept s r := by
  intro t stage place
  exact ordered.inFlight.held i t stage (by rwa [Function.update_self])

theorem acts_of_early (ordered : Ordered s (Function.update roles i r₀))
    (acts : conduct.Acts r₀ s r₁ s') (early : r₀.place.Early) :
    r₁.place.Early ∧ s'.commands = s.commands := by
  induction acts with
  | none => exact ⟨early, rfl⟩
  | more before act ih =>
    obtain ⟨early', same⟩ := Act.of_early act (ordered.acts before).kept ih.1
    exact ⟨early', same.trans ih.2⟩

/-- A call that writes goes on with that, or it ended it and told the client's own task once. -/
theorem acts_of_writes (ordered : Ordered s (Function.update roles i r₀))
    (acts : conduct.Acts r₀ s r₁ s') (writes : r₀.place.Writes) :
    r₁.place.Writes ∧ s'.commands = s.commands ∨
      r₁.place.Past ∧ s'.commands = s.commands ++ [.configurationChanged] := by
  induction acts with
  | none => exact .inl ⟨writes, rfl⟩
  | more before act ih =>
    have kept := (ordered.acts before).kept
    obtain ⟨writes', same⟩ | ⟨past, told⟩ := ih
    · rw [← same]
      exact Act.of_writes act kept writes'
    · obtain ⟨past', same⟩ := Act.of_past act kept past
      exact .inr ⟨past', same.trans told⟩

omit [DecidableEq ι] in
theorem Rest.writes_iff {on : Wait} (rest : Rest r s on r') : r'.place.Writes ↔ r.place.Writes := by
  cases rest with
  | pause rest => cases rest <;> exact Iff.rfl
  | _ => exact Iff.rfl

omit [Store σ] [DecidableEq ι] in
theorem Woken.writes_iff (woken : Woken r s r₀) : r₀.place.Writes ↔ r.place.Writes := by
  obtain rfl | ⟨on, wake⟩ := woken
  · exact Iff.rfl
  · cases wake <;> exact Iff.rfl

omit [Store σ] [DecidableEq ι] in
theorem Woken.early (woken : Woken r s r₀) (early : r.place.Early) : r₀.place.Early := by
  obtain rfl | ⟨on, wake⟩ := woken
  · exact early
  · cases wake with
    | turn => exact trivial
    | same => exact early

omit [Store σ] [DecidableEq ι] in
theorem Place.Writes.holds {p : Place} (writes : p.Writes) : p.Holds := by
  cases p with
  | holding => trivial
  | _ => exact absurd writes id

omit [Store σ] [DecidableEq ι] in
theorem Place.Past.not_writes {p : Place} (past : p.Past) : ¬ p.Writes := by
  unfold Place.Writes
  split
  · exact absurd past id
  · exact absurd past id
  · exact id

/-- What a call that goes on tells the client's own task: it is told once, when a migration ends. -/
theorem Moved.commands (ordered : Ordered s roles) (moved : Moved s roles (.go i) s' roles')
    (rests : (roles i).place.Writes ∨ (roles i).place.Early) :
    (∃ j, (roles j).place.Writes) ∧ (∀ j, ¬ (roles' j).place.Writes) ∧
        s'.commands = s.commands ++ [.configurationChanged] ∨
      ((∃ j, (roles j).place.Writes) → ∃ j, (roles' j).place.Writes) ∧ s'.commands = s.commands := by
  cases moved with
  | waits => exact .inr ⟨id, rfl⟩
  | @goes i r₀ r₁ r s' woken acts rested =>
    have self : Function.update roles i r i = r := Function.update_self i r roles
    have others := update_others roles i r
    have woke := ordered.woken woken
    by_cases writes : (roles i).place.Writes
    · obtain ⟨goesOn, same⟩ | ⟨past, told⟩ := acts_of_writes woke acts (woken.writes_iff.mpr writes)
      · refine .inr ⟨fun _ => ⟨i, ?_⟩, same⟩
        rw [self]
        obtain ⟨rfl, idle⟩ | ⟨on, rest⟩ := rested
        · simp [idle, Place.Writes] at goesOn
        · exact rest.writes_iff.mpr goesOn
      · have ended : ¬ r.place.Writes := by
          obtain ⟨rfl, idle⟩ | ⟨on, rest⟩ := rested
          · exact past.not_writes
          · exact fun writes' => past.not_writes (rest.writes_iff.mp writes')
        refine .inl ⟨⟨i, writes⟩, fun j writes' => ?_, told⟩
        -- Whoever writes has the turn, so no other call can.
        have alone : j = i := by
          obtain same | same := others j
          · exact same
          · rw [same] at writes'
            exact ordered.turns.alone writes'.holds writes.holds
        subst alone
        rw [self] at writes'
        exact ended writes'
    · have early := woken.early (rests.resolve_left writes)
      refine .inr ⟨fun ⟨j, writes'⟩ => ⟨j, ?_⟩, (acts_of_early woke acts early).2⟩
      obtain rfl | same := others j
      · exact absurd writes' writes
      · rwa [same]

end Strides

section Moves

variable {calls : ι → Call} {crew : Calls σ ι}

/-- Between two moves a call has just begun an attempt, or it is not about to end a migration. -/
theorem Keeping.writes_or_early (keeping : Keeping calls crew roles) (i : ι) :
    (roles i).place.Writes ∨ (roles i).place.Early := by
  obtain ⟨-, idle⟩ | ⟨on, next, r₁, s₁, -, rest⟩ := keeping.rests i
  · rw [idle]
    exact .inr trivial
  · generalize roles i = r at rest
    cases rest with
    | pause rest =>
      cases rest with
      | attempt => exact .inl trivial
      | _ => exact .inr trivial
    | _ => exact .inr trivial

/-- A migration is underway while a call stands between its beginning and the end of its attempts. -/
theorem Keeping.underway_iff (keeping : Keeping calls crew roles) :
    crew.Underway ↔ ∃ i, (roles i).place.Writes := by
  have at_rest (i : ι) : (crew.tasks i).waitsFor?.any migrates = true ↔ (roles i).place.Writes := by
    obtain ⟨starts, idle⟩ | ⟨on, next, r₁, s₁, task, rest⟩ := keeping.rests i
    · rw [idle]
      refine iff_of_false ?_ id
      cases task : crew.tasks i with
      | wait on next => exact absurd task (starts on next)
      | _ => exact Bool.false_ne_true
    · rw [task]
      show migrates on = true ↔ _
      generalize roles i = r at rest
      cases rest with
      | pause rest =>
        cases rest with
        | attempt other => exact iff_of_true (decide_eq_true other) trivial
        | silencing => exact iff_of_false (by simp [migrates, silencingWrite]) id
        | question => exact iff_of_false Bool.false_ne_true id
      | _ => exact iff_of_false Bool.false_ne_true id
  exact exists_congr at_rest

theorem Keeping.inFlight_iff (keeping : Keeping calls crew roles) :
    crew.state.migration.inFlight = none ↔ ¬ crew.Underway := by
  obtain ⟨turns, inFlight, -⟩ := keeping.ordered
  rw [keeping.underway_iff]
  by_cases nobody : ∀ i t stage, (roles i).place ≠ .holding t stage
  · refine iff_of_true (inFlight.free nobody) fun ⟨i, writes⟩ => ?_
    obtain ⟨t, stage, place⟩ := writes.holds.stage
    exact nobody i t stage place
  · push Not at nobody
    obtain ⟨i, t, stage, place⟩ := nobody
    have alone : (∃ j, (roles j).place.Writes) ↔ (roles i).place.Writes := by
      refine ⟨fun ⟨j, writes⟩ => ?_, fun writes => ⟨i, writes⟩⟩
      rwa [turns.alone (i := i) (by rw [place]; trivial) writes.holds]
    rw [alone, inFlight.held i t stage place, place]
    cases stage with
    | writing => exact iff_of_false nofun (absurd trivial)
    | attempting => exact iff_of_false nofun (absurd trivial)
    | ending => exact absurd place (keeping.notEnding i t)
    | _ => exact iff_of_true rfl id

theorem Keeping.changed (keeping : Keeping calls crew roles) :
    (crew.Underway → (configurationChanged crew.state).commands = crew.state.commands) ∧
      (¬ crew.Underway → (configurationChanged crew.state).commands =
        crew.state.commands ++ [.configurationChanged]) := by
  rw [← not_not (a := crew.Underway), ← keeping.inFlight_iff, not_not]
  unfold configurationChanged defer
  cases crew.state.migration.inFlight with
  | none => exact ⟨absurd rfl, fun _ => rfl⟩
  | some kept => exact ⟨fun _ => rfl, nofun⟩

variable [DecidableEq ι]

/-- How often the client's own task is told in a run that the configuration changed. -/
def Calls.sent (crew : Calls σ ι) : List (Move σ ι) → Nat
  | [] => 0
  | m :: moves =>
    ((crew.move m).state.pendingChanges - crew.state.pendingChanges) + (crew.move m).sent moves

omit [Store σ] [DecidableEq ι] in
theorem pendingChanges_of_told (told : s'.commands = s.commands ++ [.configurationChanged]) :
    s'.pendingChanges - s.pendingChanges = 1 := by
  simp [pendingChanges, told]

omit [Store σ] [DecidableEq ι] in
theorem pendingChanges_of_same (same : s'.commands = s.commands) :
    s'.pendingChanges - s.pendingChanges = 0 := by
  simp [pendingChanges, same]

/-- In one move the client's own task is told of a change only if a migration ends or if none is
underway. -/
theorem Keeping.told (keeping : Keeping calls crew roles) (m : Move σ ι) :
    let told := (crew.move m).state.pendingChanges - crew.state.pendingChanges
    (crew.Underway → (crew.move m).Underway → told = 0) ∧
      (crew.Underway → ¬ (crew.move m).Underway → told = 1) ∧
      (¬ crew.Underway → m ≠ .changed → told = 0) := by
  intro told
  cases m with
  | answer m a =>
    have same : (answerMessage m a crew.state).commands = crew.state.commands := by
      unfold answerMessage
      dsimp only
      split <;> rfl
    exact ⟨fun _ _ => pendingChanges_of_same same, fun before after => absurd before after,
      fun _ _ => pendingChanges_of_same same⟩
  | changed =>
    exact ⟨fun before _ => pendingChanges_of_same (keeping.changed.1 before),
      fun before after => absurd before after, fun _ other => absurd rfl other⟩
  | aside f keeps =>
    have fewer : told = 0 := Nat.sub_eq_zero_of_le (keeps crew.state).pendingChanges
    exact ⟨fun _ _ => fewer, fun before after => absurd before after, fun _ _ => fewer⟩
  | go i =>
    obtain ⟨roles', keeping', moved⟩ := keeping.go i
    rw [keeping.underway_iff, keeping'.underway_iff]
    obtain ⟨before, after, told⟩ | ⟨goesOn, same⟩ :=
      moved.commands keeping.ordered (keeping.writes_or_early i)
    · exact ⟨fun _ ⟨j, writes⟩ => absurd writes (after j), fun _ _ => pendingChanges_of_told told,
        absurd before⟩
    · exact ⟨fun _ _ => pendingChanges_of_same same, fun before ends => absurd (goesOn before) ends,
        fun _ _ => pendingChanges_of_same same⟩

theorem Keeping.sent (keeping : Keeping calls crew roles) (moves : List (Move σ ι))
    (underway : ∀ before, before <+: moves → (crew.after before).Underway) :
    crew.sent moves = 0 ∧
      ∀ last, ¬ (crew.after (moves ++ [last])).Underway → crew.sent (moves ++ [last]) = 1 := by
  induction moves generalizing crew roles with
  | nil =>
    refine ⟨rfl, fun last ends => ?_⟩
    exact (keeping.told last).2.1 (underway [] (List.prefix_refl _)) ends
  | cons m moves ih =>
    obtain ⟨roles', keeping', -⟩ := keeping.move m
    have quiet := (keeping.told m).1 (underway [] (List.nil_prefix)) (underway [m] (by simp))
    obtain ⟨none, once⟩ := ih keeping' fun before early =>
      underway (m :: before) (List.cons_prefix_cons.mpr ⟨rfl, early⟩)
    refine ⟨?_, fun last ends => ?_⟩
    · rw [Calls.sent, quiet, none]
    · rw [List.cons_append, Calls.sent, quiet, once last ends]

theorem Keeping.ceases (keeping : Keeping calls crew roles) (underway : crew.Underway) :
    crew.CanReach fun later => ¬ later.Underway := by
  obtain ⟨i, writes⟩ := keeping.underway_iff.mp underway
  obtain ⟨moves, plain, ended⟩ := keeping.completes i
  clear underway
  induction moves generalizing crew roles with
  | nil =>
    have starts : (crew.tasks i).Begins := by
      intro on next task
      simp [Calls.after, task, Program.answer?] at ended
    simp [keeping.begins i starts, Place.Writes] at writes
  | cons m moves ih =>
    obtain ⟨roles', keeping', moved⟩ := keeping.move m
    have allowed : m.Plain := plain m (by simp)
    by_cases goesOn : (roles' i).place.Writes
    · exact .move allowed (ih keeping' goesOn (fun m member => plain m (by simp [member])) ended)
    · -- Nobody else can have begun to write, for nobody else had the turn.
      refine .move allowed (.now fun underway => ?_)
      obtain ⟨j, writes'⟩ := keeping'.underway_iff.mp underway
      have other : j ≠ i := fun same => goesOn (same ▸ writes')
      cases m with
      | go k =>
        by_cases mine : i = k
        · rw [moved.others (mine ▸ other)] at writes'
          exact other (keeping.ordered.turns.alone writes'.holds writes.holds)
        · rw [moved.others mine] at goesOn
          exact goesOn writes
      | answer =>
        cases moved
        exact goesOn writes
      | _ => exact allowed

/-- A change of the configuration is told at once if no migration is underway. All changes during a
migration, and the migration itself, are told once, after its last attempt, which it can always come to. -/
theorem notifications_deferred (calls : ι → Call) (store : σ) (memento : Memento)
    (launch : Option Launch) (canLaunch : Launch → Except LaunchError Unit) (processId : Nat)
    (moves : List (Move σ ι)) :
    let crew := (withCalls (.new store memento launch canLaunch processId) calls).after moves
    (¬ crew.Underway →
      (crew.move .changed).state.commands = crew.state.commands ++ [.configurationChanged] ∧
        ∀ m, m ≠ .changed → crew.sent [m] = 0) ∧
      (∀ during, (∀ before, before <+: during → (crew.after before).Underway) →
        crew.sent during = 0 ∧
          ∀ last, ¬ (crew.after (during ++ [last])).Underway → crew.sent (during ++ [last]) = 1) ∧
      (crew.Underway → crew.CanReach fun later => ¬ later.Underway) := by
  intro crew
  obtain ⟨roles, keeping⟩ :=
    (Keeping.start calls store memento launch canLaunch processId).after moves
  exact ⟨fun free => ⟨keeping.changed.2 free, fun m => (keeping.told m).2.2 free⟩, keeping.sent,
    keeping.ceases⟩

end Moves

def lonelyMigration : Calls MemoryStore Bool :=
  withCalls (.new legacyStore .inMemory none (fun _ => .error .noLaunch) 0) fun _ => .migrate none

/-- A change before the migration is told at once; two changes between its attempts are told at its end. -/
theorem notifications_deferred_twice :
    let crew := lonelyMigration.after [.go true, .go true]
    let during : List (Move MemoryStore Bool) := [.changed, .go true, .changed]
    (lonelyMigration.move .changed).state.commands = [.configurationChanged] ∧
      crew.state.commands = [] ∧ crew.sent during = 0 ∧ crew.sent (during ++ [.go true]) = 1 ∧
      (crew.after (during ++ [.go true])).state.commands = [.configurationChanged] := by
  intro crew during
  have deferred := notifications_deferred (fun _ : Bool => .migrate none) legacyStore .inMemory none
    (fun _ => .error .noLaunch) 0
  have free : ¬ (lonelyMigration.after []).Underway := by
    unfold Calls.Underway
    decide +kernel
  have underway : ∀ before, before <+: during → (crew.after before).Underway := by
    intro before early
    simp only [during, List.prefix_cons_iff, List.prefix_nil] at early
    unfold Calls.Underway
    obtain rfl | ⟨-, rfl, rfl | ⟨-, rfl, rfl | ⟨-, rfl, rfl⟩⟩⟩ := early <;> decide +kernel
  have ends : ¬ (crew.after (during ++ [.go true])).Underway := by
    unfold Calls.Underway
    decide +kernel
  obtain ⟨none, once⟩ := (deferred [.go true, .go true]).2.1 during underway
  exact ⟨((deferred []).1 free).1, by decide +kernel, none, once _ ends, by decide +kernel⟩

end LinterClient.Session
