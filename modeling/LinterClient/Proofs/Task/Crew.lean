import Mathlib.Logic.Function.Basic
import LinterClient.Task.Program

/-!
Any number of tasks over one state, and what they keep to.

Each task has a role, which says what it may do next and what it may wait for. A program that keeps to
its role between any two waits keeps to it in every schedule.
-/

namespace LinterClient

/-- Tasks that share a state. One that ended has its answer left. -/
structure Crew (ι State Wait Job α : Type) where
  state : State
  tasks : ι → Program State Wait Job α

/-- What tasks may do, by their roles. -/
structure Conduct (State Wait Role : Type) where
  /-- A change of the state, and the role after it. -/
  act : Role → State → Role → State → Prop
  /-- A wait, and the role that waits. -/
  rest : Role → State → Wait → Role → Prop
  /-- The end of a wait, and the role that goes on. -/
  wake : Role → Wait → State → Role → Prop

inductive Conduct.Acts {State Wait Role : Type} (c : Conduct State Wait Role) (r : Role) (s : State) :
    Role → State → Prop where
  | none : Acts c r s r s
  | more {r' r'' : Role} {s' s'' : State} :
    Acts c r s r' s' → c.act r' s' r'' s'' → Acts c r s r'' s''

namespace Conduct

variable {State Wait Role : Type} {c : Conduct State Wait Role} {r r' r'' : Role} {s s' s'' : State}

theorem Acts.trans (first : c.Acts r s r' s') (rest : c.Acts r' s' r'' s'') : c.Acts r s r'' s'' := by
  induction rest with
  | none => exact first
  | more _ act ih => exact .more ih act

theorem Acts.of_act (act : c.act r s r' s') : c.Acts r s r' s' :=
  .more .none act

end Conduct

namespace Program

variable {State Wait Job Role α β : Type}

def answer? : Program State Wait Job α → Option α
  | .done a => some a
  | _ => none

def waitsFor? : Program State Wait Job α → Option Wait
  | .wait on _ => some on
  | _ => none

def Pause.program : Pause State Wait Job α → Program State Wait Job α
  | .done a => .done a
  | .waiting on next => .wait on next

variable (c : Conduct State Wait Role) (ready : Wait → State → Bool)

/-- From a role and a state on, a program does what its roles may do, and ends as it should. -/
def Keeps (post : α → Role → State → Prop) : Program State Wait Job α → Role → State → Prop
  | .done a, r, s => post a r s
  | .read next, r, s => (next s).Keeps post r s
  | .change f next, r, s => ∃ r', c.act r s r' (f s) ∧ next.Keeps post r' (f s)
  | .wait on next, r, s => ∃ r', c.rest r s on r' ∧
      ∀ s', ready on s' = true → ∃ r'', c.wake r' on s' r'' ∧ next.Keeps post r'' s'
  | .spawn _ next, r, s => next.Keeps post r s

section Rules

variable {c ready} {post : α → Role → State → Prop} {r : Role} {s : State}

theorem keeps_pure {a : α} :
    (pure a : Program State Wait Job α).Keeps c ready post r s ↔ post a r s := Iff.rfl

theorem keeps_get {post : State → Role → State → Prop} :
    (get : Program State Wait Job State).Keeps c ready post r s ↔ post s r s := Iff.rfl

theorem keeps_modify {post : Unit → Role → State → Prop} {f : State → State} :
    (modify f : Program State Wait Job Unit).Keeps c ready post r s ↔
      ∃ r', c.act r s r' (f s) ∧ post () r' (f s) := Iff.rfl

theorem keeps_modifyGet {f : State → α × State} :
    (modifyGet f : Program State Wait Job α).Keeps c ready post r s ↔
      ∃ r', c.act r s r' (f s).2 ∧ post (f s).1 r' (f s).2 := Iff.rfl

theorem keeps_await {post : Unit → Role → State → Prop} {on : Wait} :
    (await on : Program State Wait Job Unit).Keeps c ready post r s ↔
      ∃ r', c.rest r s on r' ∧
        ∀ s', ready on s' = true → ∃ r'', c.wake r' on s' r'' ∧ post () r'' s' := Iff.rfl

theorem keeps_start {post : Unit → Role → State → Prop} {job : Job} :
    (start job : Program State Wait Job Unit).Keeps c ready post r s ↔ post () r s := Iff.rfl

theorem keeps_bind {p : Program State Wait Job α} {f : α → Program State Wait Job β}
    {post : β → Role → State → Prop} :
    (p >>= f).Keeps c ready post r s ↔
      p.Keeps c ready (fun a r s => (f a).Keeps c ready post r s) r s := by
  show (p.bind f).Keeps c ready post r s ↔ _
  induction p generalizing r s with
  | done a => rfl
  | read next ih => exact ih s
  | change g next ih => exact exists_congr fun r' => and_congr Iff.rfl ih
  | wait on next ih =>
    refine exists_congr fun r' => and_congr Iff.rfl (forall_congr' fun s' => forall_congr' fun _ => ?_)
    exact exists_congr fun r'' => and_congr Iff.rfl ih
  | spawn job next ih => exact ih

end Rules

/-- Whether a program does something before it waits. -/
def Begins (p : Program State Wait Job α) : Prop :=
  ∀ on next, p ≠ .wait on next

theorem begins_pure (a : α) : (pure a : Program State Wait Job α).Begins := nofun

theorem begins_read (next : State → Program State Wait Job α) : (Program.read next).Begins := nofun

theorem Begins.bind {p : Program State Wait Job α} {f : α → Program State Wait Job β}
    (first : p.Begins) (then_ : ∀ a, (f a).Begins) : (p >>= f).Begins := by
  cases p with
  | done a => exact then_ a
  | wait on next => exact absurd rfl (first on next)
  | _ => nofun

def Wakes (r : Role) (s : State) : Program State Wait Job α → Role → Prop
  | .wait on _, r' => c.wake r on s r'
  | _, r' => r' = r

def Rests (r : Role) (s : State) : Pause State Wait Job α → Role → Prop
  | .waiting on _, r' => c.rest r s on r'
  | .done _, r' => r' = r

/-- A task runs from where it stands to where it stands next. -/
def Stride (p : Program State Wait Job α) (r : Role) (s : State) (stop : Pause State Wait Job α)
    (r' : Role) (s' : State) : Prop :=
  ∃ r₀ r₁, Wakes c r s p r₀ ∧ c.Acts r₀ s r₁ s' ∧ Rests c r₁ s' stop r'

/-- A task in a role that stands at its beginning, at a wait or at its end. -/
inductive Stands (post : α → Role → Prop) : Program State Wait Job α → Role → Prop where
  | ready {p : Program State Wait Job α} {r : Role} :
    p.Begins → (∀ s, p.Keeps c ready (fun a r _ => post a r) r s) →
      Stands post p r
  | waiting {on : Wait} {next : Program State Wait Job α} {r r₁ : Role} {s₁ : State} :
    c.rest r₁ s₁ on r →
      (∀ s, ready on s = true →
        ∃ r', c.wake r on s r' ∧ next.Keeps c ready (fun a r _ => post a r) r' s) →
      Stands post (.wait on next) r

variable {c ready} {post : α → Role → Prop} {r : Role} {s : State}

theorem Keeps.advance {p : Program State Wait Job α}
    (keeps : p.Keeps c ready (fun a r _ => post a r) r s) :
    let stop := p.advance s
    ∃ r₁ r', c.Acts r s r₁ stop.2.1 ∧ Rests c r₁ stop.2.1 stop.1 r' ∧
      Stands c ready post stop.1.program r' := by
  induction p generalizing r s with
  | done a => exact ⟨r, r, .none, rfl, .ready nofun fun _ => keeps⟩
  | read next ih => exact ih s keeps
  | change f next ih =>
    obtain ⟨r', act, rest⟩ := keeps
    obtain ⟨r₁, r'', acts, rests, stands⟩ := ih rest
    exact ⟨r₁, r'', (Conduct.Acts.of_act act).trans acts, rests, stands⟩
  | wait on next ih =>
    obtain ⟨r', rests, goes⟩ := keeps
    exact ⟨r, r', .none, rests, .waiting rests goes⟩
  | spawn job next ih => exact ih keeps

/-- What holds of ended programs, and of a wait if it holds of wherever the program stops next, holds
wherever a program stops. -/
theorem stop_induction {motive : Program State Wait Job α → Prop} (done : ∀ a, motive (.done a))
    (wait : ∀ on next, (∀ s, motive (next.advance s : Pause _ _ _ _ × State × List Job).1.program) →
      motive (.wait on next)) (p : Program State Wait Job α) (s : State) :
    motive (p.advance s).1.program := by
  induction p generalizing s with
  | done a => exact done a
  | read next ih => exact ih s s
  | change f next ih => exact ih (f s)
  | wait on next ih => exact wait on next ih
  | spawn job next ih => exact ih s

end Program

namespace Crew

variable {ι State Wait Job Role α : Type} [DecidableEq ι]

/-- Lets a task run to its next wait. -/
def run (i : ι) (p : Program State Wait Job α) (crew : Crew ι State Wait Job α) :
    Crew ι State Wait Job α :=
  let stop := p.advance crew.state
  ⟨stop.2.1, Function.update crew.tasks i stop.1.program⟩

/-- Lets a task go on, if its wait is over. -/
def go (ready : Wait → State → Bool) (i : ι) (crew : Crew ι State Wait Job α) :
    Crew ι State Wait Job α :=
  match crew.tasks i with
  | .wait on next => if ready on crew.state then crew.run i next else crew
  | p => crew.run i p

variable {c : Conduct State Wait Role} {ready : Wait → State → Bool} {post : α → Role → Prop}
variable {crew : Crew ι State Wait Job α}

theorem go_tasks_of_ne {i j : ι} (other : j ≠ i) : (crew.go ready i).tasks j = crew.tasks j := by
  simp only [go]
  split
  · split
    · exact Function.update_of_ne other _ _
    · rfl
  · exact Function.update_of_ne other _ _

theorem go_tasks_of_begins {i : ι} (begins : (crew.tasks i).Begins) :
    (crew.go ready i).tasks i = ((crew.tasks i).advance crew.state).1.program := by
  generalize task : crew.tasks i = p at begins
  cases p with
  | wait on next => exact absurd rfl (begins on next)
  | _ =>
    simp only [go, task]
    exact Function.update_self _ _ _

theorem go_tasks_of_ready {i : ι} {on : Wait} {next : Program State Wait Job α}
    (task : crew.tasks i = .wait on next) (isReady : ready on crew.state = true) :
    (crew.go ready i).tasks i = (next.advance crew.state).1.program := by
  simp only [go, task, isReady, if_true]
  exact Function.update_self _ _ _

/-- A task that goes on makes one stride, or its wait is not over. -/
theorem go_cases {i : ι} {r : Role} (stands : (crew.tasks i).Stands c ready post r) :
    (∃ on, (crew.tasks i).waitsFor? = some on ∧ ready on crew.state ≠ true) ∧
        crew.go ready i = crew ∨
      ∃ (stop : Program.Pause State Wait Job α) (r' : Role),
        (crew.go ready i).tasks i = stop.program ∧ stop.program.Stands c ready post r' ∧
          (crew.tasks i).Stride c r crew.state stop r' (crew.go ready i).state := by
  generalize task : crew.tasks i = p at stands
  cases stands with
  | ready starts keeps =>
    have goes : crew.go ready i = crew.run i p := by
      cases p with
      | wait on next => exact absurd rfl (starts on next)
      | _ => simp only [go, task]
    obtain ⟨r₁, r', acts, rests, stands⟩ := (keeps crew.state).advance
    have woke : Program.Wakes c r crew.state p r := by
      cases p with
      | wait on next => exact absurd rfl (starts on next)
      | _ => rfl
    right
    rw [goes]
    exact ⟨_, r', Function.update_self _ _ _, stands, r, r₁, woke, acts, rests⟩
  | @waiting on next r r₀ s₀ rested goes =>
    by_cases isReady : ready on crew.state = true
    · obtain ⟨r₀, woke, keeps⟩ := goes crew.state isReady
      obtain ⟨r₁, r', acts, rests, stands⟩ := keeps.advance
      have goes : crew.go ready i = crew.run i next := by
        simp only [go, task, isReady, if_true]
      right
      rw [goes]
      exact ⟨_, r', Function.update_self _ _ _, stands, r₀, r₁, woke, acts, rests⟩
    · refine .inl ⟨⟨on, rfl, isReady⟩, ?_⟩
      simp only [go, task, if_neg isReady]

end Crew

end LinterClient
