import LinterClient.Proofs.Migration.Convergence
import LinterClient.Proofs.Session.Keeping
import LinterClient.Proofs.Session.Order

/-!
Runs of a session with its calls.

Every move of a run is one stride of one call, or one thing that happens besides the calls. What each of
them keeps, every run keeps.
-/

namespace LinterClient.Session

open Migration (Change Choice Recorded)

variable {σ ι : Type} [Store σ]

/-- Where a call that goes on stands first. -/
def Woken (r : Role) (s : Session σ) (r₀ : Role) : Prop :=
  r₀ = r ∨ ∃ on, Wake r on s r₀

/-- Where a call that ran stands at last: it ended or it waits. -/
def Rested (r₁ : Role) (s : Session σ) (r : Role) : Prop :=
  r = r₁ ∧ r.place = .idle ∨ ∃ on, Rest r₁ s on r

variable [DecidableEq ι]

inductive Moved (s : Session σ) (roles : ι → Role) : Move σ ι → Session σ → (ι → Role) → Prop where
  | waits {i : ι} : Moved s roles (.go i) s roles
  | goes {i : ι} {r₀ r₁ r : Role} {s' : Session σ} :
    Woken (roles i) s r₀ → conduct.Acts r₀ s r₁ s' → Rested r₁ s' r →
      Moved s roles (.go i) s' (Function.update roles i r)
  | answered {m : Nat} {a : Option String} : Moved s roles (.answer m a) (answerMessage m a s) roles
  | changed : Moved s roles .changed (configurationChanged s) roles
  | aside {f : Session σ → Session σ} {keeps : ∀ s, Aside s (f s)} :
    Moved s roles (.aside f keeps) (f s) roles

structure Keeping (calls : ι → Call) (crew : Calls σ ι) (roles : ι → Role) : Prop where
  stands : ∀ i, (crew.tasks i).Stands conduct ready (Ends (calls i)) (roles i)
  begins : ∀ i, (crew.tasks i).Begins → (roles i).place = .idle
  ordered : Ordered crew.state roles

/-- What is kept by all that happens in a session, but of what others do only by what is allowed. -/
structure Stable (allowed : (Session σ → Session σ) → Prop) (P : Session σ → (ι → Role) → Prop) :
    Prop where
  wake {s : Session σ} {roles : ι → Role} {i : ι} {on : Wait} {r : Role} :
    Ordered s roles → P s roles → Wake (roles i) on s r → P s (Function.update roles i r)
  act {s s' : Session σ} {roles : ι → Role} {i : ι} {r : Role} :
    Ordered s roles → P s roles → Act (roles i) s r s' → P s' (Function.update roles i r)
  rest {s : Session σ} {roles : ι → Role} {i : ι} {on : Wait} {r : Role} :
    Ordered s roles → P s roles → Rest (roles i) s on r → P s (Function.update roles i r)
  answer {s : Session σ} {roles : ι → Role} (m : Nat) (a : Option String) :
    Ordered s roles → P s roles → P (answerMessage m a s) roles
  changed {s : Session σ} {roles : ι → Role} : P s roles → P (configurationChanged s) roles
  aside {s : Session σ} {roles : ι → Role} {f : Session σ → Session σ} :
    allowed f → Aside s (f s) → P s roles → P (f s) roles

section Strides

variable {s s' : Session σ} {roles roles' : ι → Role} {i : ι} {r r₀ r₁ : Role}

theorem Ordered.woken (ordered : Ordered s roles) (woken : Woken (roles i) s r₀) :
    Ordered s (Function.update roles i r₀) := by
  obtain rfl | ⟨on, wake⟩ := woken
  · rwa [Function.update_eq_self]
  · exact ordered.wake wake

theorem Ordered.acts (ordered : Ordered s (Function.update roles i r₀))
    (acts : conduct.Acts r₀ s r₁ s') : Ordered s' (Function.update roles i r₁) := by
  induction acts with
  | none => exact ordered
  | more _ act ih =>
    have next := ih.act (i := i) (by rwa [Function.update_self])
    rwa [Function.update_idem] at next

theorem Ordered.rested (ordered : Ordered s (Function.update roles i r₁)) (rested : Rested r₁ s r) :
    Ordered s (Function.update roles i r) := by
  obtain ⟨rfl, -⟩ | ⟨on, rest⟩ := rested
  · exact ordered
  · have next := ordered.rest (i := i) (by rwa [Function.update_self])
    rwa [Function.update_idem] at next

end Strides

theorem rest_notEnding {r r' : Role} {s : Session σ} {on : Wait} (rest : Rest r s on r') (t : Nat) :
    r'.place ≠ .holding t .ending := by
  cases rest with
  | pause rest => cases rest <;> simp
  | _ => simp

namespace Keeping

variable {calls : ι → Call} {crew : Calls σ ι} {roles : ι → Role}

omit [DecidableEq ι] in
/-- Between two moves a call waits, or it stands at its beginning or its end. -/
theorem rests (keeping : Keeping calls crew roles) (i : ι) :
    (crew.tasks i).Begins ∧ (roles i).place = .idle ∨
      ∃ on next r₁ s₁, crew.tasks i = .wait on next ∧ Rest r₁ (s₁ : Session σ) on (roles i) := by
  have stands := keeping.stands i
  have begins := keeping.begins i
  generalize crew.tasks i = p at stands begins
  cases stands with
  | ready starts => exact .inl ⟨starts, begins starts⟩
  | waiting rest => exact .inr ⟨_, _, _, _, rfl, rest⟩

omit [DecidableEq ι] in
theorem notEnding (keeping : Keeping calls crew roles) (i : ι) (t : Nat) :
    (roles i).place ≠ .holding t .ending := by
  obtain ⟨-, idle⟩ | ⟨on, next, r₁, s₁, -, rest⟩ := keeping.rests i
  · simp [idle]
  · exact rest_notEnding rest t

theorem go (keeping : Keeping calls crew roles) (i : ι) :
    ∃ roles', Keeping calls (crew.move (.go i)) roles' ∧
      Moved crew.state roles (.go i) (crew.move (.go i)).state roles' := by
  obtain ⟨-, stays⟩ | ⟨stop, r', task, stands, r₀, r₁, woke, acts, rests⟩ :=
    Crew.go_cases (keeping.stands i)
  · refine ⟨roles, ?_, ?_⟩
    · rwa [Calls.move, stays]
    · rw [Calls.move, stays]
      exact .waits
  have woken : Woken (roles i) crew.state r₀ := by
    revert woke
    cases crew.tasks i with
    | wait on next => exact fun wake => .inr ⟨on, wake⟩
    | _ => exact .inl
  have rested : Rested r₁ (crew.go ready i).state r' := by
    cases stop with
    | waiting on next => exact .inr ⟨on, rests⟩
    | done a =>
      cases stands with
      | ready _ keeps => exact .inl ⟨rests, (keeps crew.state).1⟩
  refine ⟨Function.update roles i r', ⟨?_, ?_, ?_⟩, .goes woken acts rested⟩
  · intro j
    by_cases same : j = i
    · subst same
      rw [Calls.move, task, Function.update_self]
      exact stands
    · rw [Calls.move, Crew.go_tasks_of_ne same, Function.update_of_ne same]
      exact keeping.stands j
  · intro j begins
    by_cases same : j = i
    · subst same
      rw [Calls.move, task] at begins
      rw [Function.update_self]
      cases stop with
      | waiting on next => exact absurd rfl (begins on next)
      | done a =>
        cases stands with
        | ready _ keeps => exact (keeps crew.state).1
    · rw [Calls.move, Crew.go_tasks_of_ne same] at begins
      rw [Function.update_of_ne same]
      exact keeping.begins j begins
  · exact ((keeping.ordered.woken woken).acts acts).rested rested

theorem move (keeping : Keeping calls crew roles) (m : Move σ ι) :
    ∃ roles', Keeping calls (crew.move m) roles' ∧
      Moved crew.state roles m (crew.move m).state roles' := by
  cases m with
  | go i => exact keeping.go i
  | answer m a =>
    exact ⟨roles, ⟨keeping.stands, keeping.begins, keeping.ordered.answer m a⟩, .answered⟩
  | changed =>
    exact ⟨roles, ⟨keeping.stands, keeping.begins, keeping.ordered.changed keeping.notEnding⟩, .changed⟩
  | aside f keeps =>
    exact ⟨roles, ⟨keeping.stands, keeping.begins, keeping.ordered.aside (keeps _)⟩, .aside⟩

end Keeping

section Stable

variable {allowed : (Session σ → Session σ) → Prop} {P : Session σ → (ι → Role) → Prop}
variable {s s' : Session σ} {roles roles' : ι → Role} {i : ι} {r r₀ r₁ : Role}

theorem Stable.acts (stable : Stable allowed P) (ordered : Ordered s (Function.update roles i r₀))
    (holds : P s (Function.update roles i r₀)) (acts : conduct.Acts r₀ s r₁ s') :
    P s' (Function.update roles i r₁) := by
  induction acts with
  | none => exact holds
  | more before act ih =>
    have next := stable.act (i := i) (ordered.acts before) ih (by rwa [Function.update_self])
    rwa [Function.update_idem] at next

theorem Stable.move (stable : Stable allowed P) {m : Move σ ι} (ordered : Ordered s roles)
    (holds : P s roles) (moved : Moved s roles m s' roles')
    (only : ∀ f keeps, m = .aside f keeps → allowed f) : P s' roles' := by
  cases moved with
  | waits => exact holds
  | answered => exact stable.answer _ _ ordered holds
  | changed => exact stable.changed holds
  | @aside f keeps => exact stable.aside (only f keeps rfl) (keeps s) holds
  | @goes i r₀ r₁ r s' woken acts rested =>
    have woke : P s (Function.update roles i r₀) := by
      obtain rfl | ⟨on, wake⟩ := woken
      · rwa [Function.update_eq_self]
      · exact stable.wake ordered holds wake
    have ran := stable.acts (ordered.woken woken) woke acts
    obtain ⟨rfl, -⟩ | ⟨on, rest⟩ := rested
    · exact ran
    · have next := stable.rest (i := i) ((ordered.woken woken).acts acts) ran
        (by rwa [Function.update_self])
      rwa [Function.update_idem] at next

variable {calls : ι → Call} {crew : Calls σ ι}

theorem Stable.after (stable : Stable allowed P) (keeping : Keeping calls crew roles)
    (holds : P crew.state roles) (moves : List (Move σ ι))
    (only : ∀ f keeps, .aside f keeps ∈ moves → allowed f) :
    ∃ roles', Keeping calls (crew.after moves) roles' ∧ P (crew.after moves).state roles' := by
  induction moves generalizing crew roles with
  | nil => exact ⟨roles, keeping, holds⟩
  | cons m moves ih =>
    obtain ⟨roles', keeping', moved⟩ := keeping.move m
    refine ih keeping' (stable.move keeping.ordered holds moved ?_) ?_
    · exact fun f keeps same => only f keeps (by simp [same])
    · exact fun f keeps member => only f keeps (by simp [member])

end Stable

theorem Keeping.after {calls : ι → Call} {crew : Calls σ ι} {roles : ι → Role}
    (keeping : Keeping calls crew roles) (moves : List (Move σ ι)) :
    ∃ roles', Keeping calls (crew.after moves) roles' := by
  induction moves generalizing crew roles with
  | nil => exact ⟨roles, keeping⟩
  | cons m moves ih =>
    obtain ⟨roles', keeping', -⟩ := keeping.move m
    exact ih keeping'

omit [DecidableEq ι] in
theorem Keeping.start (calls : ι → Call) (store : σ) (memento : Memento) (launch : Option Launch)
    (canLaunch : Launch → Except LaunchError Unit) (processId : Nat) :
    Keeping calls (withCalls (.new store memento launch canLaunch processId) calls)
      fun _ => ⟨.idle, []⟩ := by
  refine ⟨fun i => callTask_stands (calls i), fun _ _ => rfl, ⟨?_, ?_, ?_⟩⟩
  · constructor <;> simp [withCalls, Session.new, Place.ticket?]
  · constructor <;> simp [withCalls, Session.new, InFlight]
  · constructor <;> simp [withCalls, Session.new, Session.messages, Place.message?, Place.question?]

def pageUrl : Url := ⟨"file", some ⟨"", .empty, none⟩, "/page.html", none, none⟩

/-- Two calls for the settings of one file, in a session with settings to migrate. -/
def twoCalls : Calls MemoryStore Bool :=
  withCalls (.new legacyStore .inMemory none (fun _ => .error .noLaunch) 0) fun _ => .settings pageUrl

end LinterClient.Session
