import LinterClient.Proofs.Migration.Update
import LinterClient.Proofs.Session.Modals
import LinterClient.Proofs.Store.Memory

/-!
Turning the question off for good.

The answer only leads to a write. If the store takes it, nobody is asked any more; if the store refuses
it, nothing else keeps the session from asking again.
-/

namespace LinterClient.Session

open Migration (Choice Recorded Snapshot)

variable {σ ι α : Type} [Store σ]

section Asking

variable {s : Session σ}

/-- Whether a call with the turn would now put the question to the user. -/
def Asks (s : Session σ) (uri : Url) : Prop :=
  ∃ m, ((promptMigration uri).advance s).1.program.waitsFor? = some (.answer m)

omit [Store σ] in
theorem forIn_writeLog_advance {β : Type} (l : List β) (level : LogLevel) (text : β → String)
    (s : Session σ) : ∃ s', Alike s s' ∧
      (forIn l PUnit.unit fun x _ => do
        writeLog level (text x)
        pure (ForInStep.yield PUnit.unit) : Task σ PUnit).advance s = (.done ⟨⟩, s', []) := by
  induction l generalizing s with
  | nil => exact ⟨s, .refl s, rfl⟩
  | cons x l ih =>
    obtain ⟨s', alike, ended⟩ := ih (addLog level (text x) s)
    refine ⟨s', (alike_addLog level (text x) s).trans alike, ?_⟩
    rw [List.forIn_cons]
    exact ended

theorem recordMigration_advance (resource : Option Url) (s : Session σ) :
    ∃ s', Alike s s' ∧ (recordMigration resource).advance s =
      (.done (Migration.record (Snapshot.take s.store resource) resource), s', []) := by
  obtain ⟨s', alike, ended⟩ := forIn_writeLog_advance
    (Migration.legacyReport (Snapshot.take s.store resource)) .debug
    (fun e => "Leaving legacy working directory entries in place target=" ++ e.1.name ++
      " legacy=" ++ toString e.2) s
  exact ⟨s', alike, Program.advance_bind_of_done ended⟩

/-- Three things count: the session, the setting, and what there is to migrate. -/
theorem asks_iff {uri : Url} : Asks s uri ↔
    s.migration.dismissed = false ∧ promptsEnabled s.store uri = true ∧
      (Migration.record (Snapshot.take s.store (some uri)) (some uri)).needsUpdate = true := by
  obtain ⟨s', -, recorded⟩ := recordMigration_advance (some uri) s
  unfold Asks
  rw [promptMigration, Program.advance_bind_of_done (p := .get) rfl]
  split
  · rename_i off
    apply iff_of_false
    · rintro ⟨_, waits⟩
      cases waits
    · rintro ⟨allowed, enabled, _⟩
      simp [allowed, enabled] at off
  · rename_i on
    rw [Program.advance_bind_of_done (f := fun r => _) recorded]
    simp only [Bool.or_eq_true, not_or, Bool.not_eq_true, Bool.not_eq_eq_eq_not, Bool.not_true,
      Bool.not_eq_false] at on
    split
    · rename_i needless
      apply iff_of_false
      · rintro ⟨_, waits⟩
        cases waits
      · rintro ⟨_, _, needed⟩
        simp [needed] at needless
    · rename_i needed
      exact iff_of_true ⟨_, rfl⟩ ⟨on.1, on.2, by simpa using needed⟩

theorem asks_congr {s' : Session σ} {uri : Url}
    (dismissed : s'.migration.dismissed = s.migration.dismissed)
    (same : ∀ key resource, Store.inspect s'.store key resource = Store.inspect s.store key resource) :
    Asks s' uri ↔ Asks s uri := by
  simp only [asks_iff, dismissed, promptsEnabled, Snapshot.take, same]

end Asking

/-- Whether a move is an attempt to turn the question off that the store refuses. -/
def Calls.Refuses (crew : Calls σ ι) : Move σ ι → Prop
  | .go i => (crew.tasks i).waitsFor? = some (.write silencingWrite) ∧
    (Store.write crew.state.store silencingWrite).1 ≠ .ok ()
  | _ => False

/-- The store takes each attempt to turn the question off. -/
def Calls.Obeyed [DecidableEq ι] (crew : Calls σ ι) : List (Move σ ι) → Prop
  | [] => True
  | m :: moves => ¬ crew.Refuses m ∧ (crew.move m).Obeyed moves

/-- Others do not change the setting that turns the question off. -/
def LeavesPrompts (f : Session σ → Session σ) : Prop :=
  ∀ s resource, (Store.inspect (f s).store promptsKey resource).global =
    (Store.inspect s.store promptsKey resource).global

/-- Nobody is asked, whatever the resource. -/
def Forbids (store : σ) : Prop :=
  ∀ uri, promptsEnabled store uri = false

section Laws

variable [LawfulStore σ] {store : σ}

theorem promptsEnabled_elsewhere {w : SettingWrite} {uri : Url}
    (apart : KeyPath.Apart (KeyPath.segments w.key) (KeyPath.segments promptsKey)) :
    promptsEnabled (Store.write store w).2 uri = promptsEnabled store uri := by
  have kept := LawfulStore.inspect_elsewhere store w promptsKey (some uri) .global
    fun reaches => reaches.2.2 apart
  have same : (Store.inspect (Store.write store w).2 promptsKey (some uri)).global =
    (Store.inspect store promptsKey (some uri)).global := kept
  simp only [promptsEnabled, same]

theorem forbids_silenced [SharedGlobal σ] (accepted : (Store.write store silencingWrite).1 = .ok ()) :
    Forbids (Store.write store silencingWrite).2 := by
  intro uri
  have written := LawfulStore.inspect_written store silencingWrite (.str "off") accepted rfl
    (by rw [silencingWrite, segments_promptsKey]; nofun)
  have off : (Store.inspect (Store.write store silencingWrite).2 promptsKey (some uri)).global =
      some (.str "off") := (SharedGlobal.inspect_global _ _ _).trans written
  simp only [promptsEnabled, off]
  rfl

theorem closing_never :
    Closing (· = some Choice.never) (fun (store : σ) _ => Forbids store) where
  forbids uri isOff := isOff uri
  dismisses declines noted := noted.resolve_right declines.2
  migrates := nofun
  writes apart isOff uri := (promptsEnabled_elsewhere apart).trans (isOff uri)

end Laws

section Strides

variable {s s' : Session σ} {roles roles' : ι → Role} {i : ι} {r₀ r₁ : Role} {n t : Nat}

/-- A call stands in the attempt from the end of its wait on. -/
theorem acts_silencing (acts : conduct.Acts r₀ s r₁ s')
    (silencing : r₁.place = .holding t .silencing) :
    r₀.place = .holding t .silencing ∧ s'.store = s.store := by
  induction acts with
  | none => exact ⟨silencing, rfl⟩
  | more _ act ih =>
    cases act with
    | aside alike =>
      obtain ⟨began, same⟩ := ih silencing
      exact ⟨began, alike.store.trans same⟩
    | proceed act => cases act <;> cases silencing
    | _ => cases silencing

/-- After the attempt a call only gives its turn back, and may wait for another one. -/
theorem acts_attempted (acts : conduct.Acts r₀ s r₁ s')
    (silencing : r₀.place = .holding t .silencing) :
    s'.migration.dismissed = s.migration.dismissed ∧
      (r₁.place = .holding t .silencing ∧ s'.store = s.store ∨
        (r₁.place = .holding t .leaving ∨ ¬ r₁.place.Holds) ∧
          s'.store = (Store.write s.store silencingWrite).2) := by
  induction acts with
  | none => exact ⟨rfl, .inl ⟨silencing, rfl⟩⟩
  | more _ act ih =>
    obtain ⟨dismissed, stood⟩ := ih
    cases act with
    | aside alike =>
      rw [alike.migration, alike.store]
      exact ⟨dismissed, stood⟩
    | proceed act =>
      rcases stood with ⟨place, same⟩ | ⟨leaving | outside, same⟩
      · cases place
        cases act with
        | start starts => rcases starts with h | ⟨h, -⟩ <;> cases h
        | silence => exact ⟨dismissed, .inr ⟨.inl rfl, by rw [same]⟩⟩
      · cases leaving
        cases act with
        | start starts => rcases starts with h | ⟨h, -⟩ <;> cases h
      · exact absurd trivial outside
    | leave ended =>
      rcases stood with ⟨place, -⟩ | ⟨-, same⟩
      · cases place
        rcases ended with h | h <;> cases h
      · exact ⟨dismissed, .inr ⟨.inr id, same⟩⟩
    | _ =>
      rcases stood with ⟨place, -⟩ | ⟨-, same⟩
      · cases place
      · exact ⟨dismissed, .inr ⟨.inr id, same⟩⟩

variable [DecidableEq ι]

/-- The user chose not to be asked again, after a number of questions. -/
abbrev OptedOut (n : Nat) (s : Session σ) (roles : ι → Role) : Prop :=
  Silenced (· = some Choice.never) (fun store _ => Forbids store) n s roles

variable [LawfulStore σ] [SharedGlobal σ]

theorem OptedOut.acts (ordered : Ordered s (Function.update roles i r₀))
    (optedOut : OptedOut n s (Function.update roles i r₀)) (acts : conduct.Acts r₀ s r₁ s')
    (accepted : ∀ t, r₀.place = .holding t .silencing →
      (Store.write s.store silencingWrite).1 = .ok ()) :
    OptedOut n s' (Function.update roles i r₁) := by
  induction acts with
  | none => exact optedOut
  | @more r' r'' s' s'' before act ih =>
    have next := ih.act (i := i) closing_never (ordered.acts before) (by rwa [Function.update_self])
      fun t silencing _ => by
        rw [Function.update_self] at silencing
        obtain ⟨began, same⟩ := acts_silencing before silencing
        rw [same]
        exact forbids_silenced (accepted t began)
    rwa [Function.update_idem] at next

theorem OptedOut.moved {m : Move σ ι} (ordered : Ordered s roles) (optedOut : OptedOut n s roles)
    (moved : Moved s roles m s' roles')
    (accepted : ∀ i t, m = .go i → (roles i).place = .holding t .silencing →
      (Store.write s.store silencingWrite).1 = .ok ())
    (leaves : ∀ f keeps, m = .aside f keeps → LeavesPrompts f) : OptedOut n s' roles' := by
  cases moved with
  | waits => exact optedOut
  | answered => exact optedOut.answer _ _
  | changed => exact optedOut.changed
  | @aside f keeps =>
    refine optedOut.aside (keeps s) fun forbids uri => ?_
    have same := leaves f keeps rfl s (some uri)
    rw [← forbids uri, promptsEnabled, promptsEnabled, same]
  | @goes i r₀ r₁ r s' woken acts rested =>
    have woke : OptedOut n s (Function.update roles i r₀) := by
      obtain rfl | ⟨on, wake⟩ := woken
      · rwa [Function.update_eq_self]
      · exact optedOut.wake wake
    have ran := OptedOut.acts (ordered.woken woken) woke acts fun t silencing => by
      refine accepted i t rfl ?_
      obtain rfl | ⟨on, wake⟩ := woken
      · exact silencing
      · generalize roles i = r at wake
        cases wake with
        | turn => cases silencing
        | same => exact silencing
    obtain ⟨rfl, -⟩ | ⟨on, rest⟩ := rested
    · exact ran
    · have next := ran.rest (i := i) (by rwa [Function.update_self])
      rwa [Function.update_idem] at next

end Strides

namespace Keeping

variable [DecidableEq ι] {calls : ι → Call} {crew : Calls σ ι} {roles : ι → Role} {i : ι} {n : Nat}

omit [DecidableEq ι] in
theorem silencing_iff (keeping : Keeping calls crew roles) :
    (crew.tasks i).waitsFor? = some (.write silencingWrite) ↔
      ∃ t, (roles i).place = .holding t .silencing := by
  obtain ⟨starts, idle⟩ | ⟨on, next, r₁, s₁, task, rest⟩ := keeping.rests i
  · refine iff_of_false (fun waits => ?_) fun ⟨t, silencing⟩ => ?_
    · cases task : crew.tasks i with
      | wait on next => exact starts on next task
      | _ => rw [task] at waits; cases waits
    · rw [idle] at silencing
      cases silencing
  · rw [task]
    show some on = _ ↔ _
    generalize roles i = r at rest
    cases rest with
    | message => exact iff_of_false nofun nofun
    | turn => exact iff_of_false nofun nofun
    | @pause t _ _ _ _ _ rest =>
      cases rest with
      | question => exact iff_of_false nofun nofun
      | silencing => exact iff_of_true rfl ⟨t, rfl⟩
      | attempt other =>
        refine iff_of_false (fun same => other ?_) nofun
        exact congrArg SettingWrite.key (Wait.write.inj (Option.some_inj.mp same))

variable [LawfulStore σ] [SharedGlobal σ]

theorem optedOut (keeping : Keeping calls crew roles) (optedOut : OptedOut n crew.state roles)
    {later : List (Move σ ι)} (obeyed : crew.Obeyed later)
    (leaves : ∀ f keeps, .aside f keeps ∈ later → LeavesPrompts f) :
    ∃ roles' : ι → Role, OptedOut n (crew.after later).state roles' := by
  induction later generalizing crew roles with
  | nil => exact ⟨roles, optedOut⟩
  | cons m later ih =>
    obtain ⟨obeys, obeyed⟩ := obeyed
    obtain ⟨roles', keeping', moved⟩ := keeping.move m
    refine ih keeping' (OptedOut.moved keeping.ordered optedOut moved ?_ ?_) obeyed ?_
    · rintro i t rfl silencing
      exact not_not.mp fun refused => obeys ⟨keeping.silencing_iff.mpr ⟨t, silencing⟩, refused⟩
    · exact fun f keeps same => leaves f keeps (by simp [same])
    · exact fun f keeps member => leaves f keeps (by simp [member])

/-- Whether anybody is asked after the attempt is up to the store alone. -/
theorem attempted (keeping : Keeping calls crew roles)
    (waits : (crew.tasks i).waitsFor? = some (.write silencingWrite)) (uri : Url) :
    Asks (crew.move (.go i)).state uri ↔ crew.Refuses (.go i) ∧ Asks crew.state uri := by
  obtain ⟨t, silencing⟩ := keeping.silencing_iff.mp waits
  obtain ⟨⟨on, other, blocked⟩, -⟩ | ⟨stop, r', -, stands, r₀, r₁, woke, acts, rests⟩ :=
    Crew.go_cases (keeping.stands i)
  · rw [waits, Option.some_inj] at other
    subst other
    exact absurd rfl blocked
  have began : r₀.place = .holding t .silencing := by
    revert woke
    generalize crew.tasks i = p at waits
    cases p with
    | wait on next =>
      intro wake
      generalize roles i = r at wake silencing
      cases wake with
      | turn => cases silencing
      | same => exact silencing
    | _ => cases waits
  have gone (t : Nat) : r₁.place ≠ .holding t .silencing := by
    intro stands_
    cases stop with
    | done a =>
      cases stands with
      | ready _ keeps =>
        have idle : r'.place = .idle := (keeps crew.state).1
        rw [rests, stands_] at idle
        cases idle
    | waiting on =>
      cases rests with
      | pause rest => cases rest <;> cases stands_
      | _ => cases stands_
  obtain ⟨dismissed, ⟨still, -⟩ | ⟨-, store⟩⟩ := acts_attempted acts began
  · exact absurd still (gone t)
  -- So the call is past the attempt, and all it changed before its next wait is what the store made of it.
  rw [Calls.move]
  by_cases accepted : (Store.write crew.state.store silencingWrite).1 = .ok ()
  · apply iff_of_false
    · intro asks
      have enabled := (asks_iff.mp asks).2.1
      rw [store, forbids_silenced accepted uri] at enabled
      cases enabled
    · rintro ⟨refuses, _⟩
      exact refuses.2 accepted
  · have refused : ∃ e, (Store.write crew.state.store silencingWrite).1 = .error e := by
      cases result : (Store.write crew.state.store silencingWrite).1 with
      | ok => exact absurd result accepted
      | error e => exact ⟨e, rfl⟩
    obtain ⟨e, refused⟩ := refused
    rw [asks_congr dismissed fun key resource => by
      rw [store, LawfulStore.inspect_refused _ _ e _ _ refused]]
    exact (and_iff_right ⟨waits, accepted⟩).symm

end Keeping

section Runs

variable [LawfulStore σ] [SharedGlobal σ] [DecidableEq ι]

/-- Once the user chose not to be asked again, no question is asked as long as the store takes the write
that the choice leads to. An attempt that the store refuses changes nothing: whoever was to be asked is
asked again. -/
theorem never_silences (calls : ι → Call) (store : σ) (memento : Memento) (launch : Option Launch)
    (canLaunch : Launch → Except LaunchError Unit) (processId : Nat) (moves : List (Move σ ι)) :
    let crew := (withCalls (.new store memento launch canLaunch processId) calls).after moves
    ∀ e ∈ openModals crew.state, ∀ (answer : Option String) (later : List (Move σ ι)),
      answer.bind Choice.ofTitle? = some .never →
        (∀ f keeps, .aside f keeps ∈ later → LeavesPrompts f) →
          let answered := crew.move (.answer e.1 answer)
          let final := answered.after later
          (answered.Obeyed later →
            openModals final.state = [] ∧ final.state.asked = crew.state.asked) ∧
          ∀ i uri, (final.tasks i).waitsFor? = some (.write silencingWrite) →
            (Asks (final.move (.go i)).state uri ↔
              final.Refuses (.go i) ∧ Asks final.state uri) := by
  intro crew e open_ answer later never leaves answered final
  obtain ⟨roles, keeping⟩ :=
    (Keeping.start calls store memento launch canLaunch processId).after moves
  have first : Keeping calls answered roles :=
    ⟨keeping.stands, keeping.begins, keeping.ordered.answer e.1 answer⟩
  constructor
  · intro obeyed
    obtain ⟨roles', optedOut⟩ :=
      first.optedOut (keeping.ordered.decided open_ never) obeyed leaves
    exact ⟨optedOut.closed, optedOut.asked⟩
  · intro i uri waits
    obtain ⟨roles', last⟩ := first.after later
    exact last.attempted waits uri

end Runs

/-- Three calls for one file, with a store that refuses its first write. -/
def threeCalls : Calls (FaultyStore MemoryStore) (Fin 3) :=
  withCalls (.new faultyStore .inMemory none (fun _ => .error .noLaunch) 0) fun _ => .settings pageUrl

/-- The refused choice is asked for again, and the next one counts. -/
theorem never_silences_second :
    let never := some "No, don't ask again"
    let first := threeCalls.after [.go 0, .go 0, .go 1, .go 2]
    let refused := (first.move (.answer 0 never)).after [.go 0]
    let second := threeCalls.after
      [.go 0, .go 0, .go 1, .go 2, .answer 0 never, .go 0, .go 0, .go 1]
    let final := (second.move (.answer 1 never)).after [.go 1, .go 1, .go 2]
    refused.Refuses (.go 0) ∧ Asks (refused.move (.go 0)).state pageUrl ∧
      (1, question) ∈ openModals second.state ∧ openModals final.state = [] ∧
      final.state.asked = 2 ∧ (final.tasks 2).answer?.isSome := by
  intro never first refused second final
  have choice : never.bind Choice.ofTitle? = some .never := by decide
  have open₀ : (0, question) ∈ openModals first.state := by decide +kernel
  have open₁ : (1, question) ∈ openModals second.state := by decide +kernel
  have waits : (refused.tasks 0).waitsFor? = some (.write silencingWrite) := by decide +kernel
  have refuses : refused.Refuses (.go 0) := ⟨waits, by decide +kernel⟩
  have asks : Asks refused.state pageUrl := asks_iff.mpr (by decide +kernel)
  have obeyed : (second.move (.answer 1 never)).Obeyed [.go 1, .go 1, .go 2] :=
    ⟨fun h => absurd h.1 (by decide +kernel), fun h => h.2 (by decide +kernel),
      fun h => absurd h.1 (by decide +kernel), trivial⟩
  have again := (never_silences (fun _ => .settings pageUrl) faultyStore .inMemory none
    (fun _ => .error .noLaunch) 0 _ (0, question) open₀ never [.go 0] choice (by simp)).2 0 pageUrl waits
  have quiet := (never_silences (fun _ => .settings pageUrl) faultyStore .inMemory none
    (fun _ => .error .noLaunch) 0 _ (1, question) open₁ never [.go 1, .go 1, .go 2] choice
    (by simp)).1 obeyed
  refine ⟨refuses, again.mpr ⟨refuses, asks⟩, open₁, quiet.1, quiet.2.trans ?_, ?_⟩
  · decide +kernel
  · decide +kernel

end LinterClient.Session
