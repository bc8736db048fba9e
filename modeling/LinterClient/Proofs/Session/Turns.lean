import LinterClient.Proofs.Session.Roles

/-!
Turns of calls.

Every ticket has one owner, and only the owner of the first one has the turn. So what is said of the
stage of whoever has the turn can be followed from stage to stage.
-/

namespace LinterClient.Session

open Migration (Change Choice Recorded)

variable {σ ι : Type}

def Place.ticket? : Place → Option Nat
  | .queued t | .holding t _ => some t
  | _ => none

def Place.Holds : Place → Prop
  | .holding _ _ => True
  | _ => False

theorem Place.Holds.stage {p : Place} (holds : p.Holds) : ∃ t stage, p = .holding t stage := by
  cases p with
  | holding t stage => exact ⟨t, stage, rfl⟩
  | _ => exact absurd holds id

structure Turns (m : MigrationState) (roles : ι → Role) : Prop where
  lt_next : ∀ t ∈ m.turns, t < m.nextTurn
  nodup : m.turns.Nodup
  mem_iff : ∀ t, t ∈ m.turns ↔ ∃ i, (roles i).place.ticket? = some t
  unique : ∀ i j t, (roles i).place.ticket? = some t → (roles j).place.ticket? = some t → i = j
  first : ∀ i t stage, (roles i).place = .holding t stage → m.turns.head? = some t

/-- What is said of the stage of the call that has the turn, or of there being none. -/
structure Held (Q : Option Stage → Prop) (roles : ι → Role) : Prop where
  held : ∀ i t stage, (roles i).place = .holding t stage → Q (some stage)
  free : (∀ i t stage, (roles i).place ≠ .holding t stage) → Q none

theorem Turns.holder_unique {m : MigrationState} {roles : ι → Role} (turns : Turns m roles) {i j : ι}
    {t t' : Nat} {stage stage' : Stage} (one : (roles i).place = .holding t stage)
    (other : (roles j).place = .holding t' stage') : i = j := by
  have same : t = t' := by
    rw [← Option.some_inj, ← turns.first i t stage one, turns.first j t' stage' other]
  subst same
  exact turns.unique i j t (by rw [one]; rfl) (by rw [other]; rfl)

theorem Turns.alone {m : MigrationState} {roles : ι → Role} (turns : Turns m roles) {i j : ι}
    (one : (roles i).place.Holds) (other : (roles j).place.Holds) : i = j := by
  obtain ⟨t, stage, place⟩ := one.stage
  obtain ⟨t', stage', place'⟩ := other.stage
  exact turns.holder_unique place place'

section Updates

variable {m m' : MigrationState} {roles roles' : ι → Role} {i : ι} {Q Q' : Option Stage → Prop}

theorem eq_of_others {α : Type} (f : Place → α) (others : ∀ j, j = i ∨ roles' j = roles j)
    (same : f (roles' i).place = f (roles i).place) (j : ι) : f (roles' j).place = f (roles j).place := by
  obtain rfl | kept := others j
  · exact same
  · rw [kept]

theorem eq_of_role (others : ∀ j, j = i ∨ roles' j = roles j) (same : roles' i = roles i) :
    roles' = roles := by
  funext j
  obtain rfl | kept := others j
  · exact same
  · exact kept

theorem update_others [DecidableEq ι] (roles : ι → Role) (i : ι) (r' : Role) (j : ι) :
    j = i ∨ Function.update roles i r' j = roles j := by
  by_cases same : j = i
  · exact .inl same
  · exact .inr (Function.update_of_ne same r' roles)

theorem Turns.queue (turns : Turns m roles) (others : ∀ j, j = i ∨ roles' j = roles j)
    (idle : (roles i).place.ticket? = none) (queued : (roles' i).place = .queued m.nextTurn)
    (more : m'.turns = m.turns ++ [m.nextTurn]) (next : m'.nextTurn = m.nextTurn + 1) :
    Turns m' roles' := by
  obtain ⟨lt_next, nodup, mem_iff, unique, first⟩ := turns
  have queues : (roles' i).place.ticket? = some m.nextTurn := by rw [queued]; rfl
  -- Tickets are never given out again, so the new one is nobody's.
  have new : ∀ j, (roles j).place.ticket? ≠ some m.nextTurn :=
    fun j owns => Nat.lt_irrefl _ (lt_next _ ((mem_iff _).mpr ⟨j, owns⟩))
  constructor
  case lt_next => grind
  case nodup => grind
  case mem_iff => grind
  case unique => grind
  case first => grind

theorem Turns.leave (turns : Turns m roles) (others : ∀ j, j = i ∨ roles' j = roles j) {t : Nat}
    {stage : Stage} (held : (roles i).place = .holding t stage)
    (idle : (roles' i).place.ticket? = none) (less : m'.turns = m.turns.tail)
    (next : m'.nextTurn = m.nextTurn) : Turns m' roles' := by
  have alone : ∀ j t' stage', (roles j).place = .holding t' stage' → i = j :=
    fun _ _ _ other => turns.holder_unique held other
  obtain ⟨lt_next, nodup, mem_iff, unique, first⟩ := turns
  have front := first i t stage held
  have holds : (roles i).place.ticket? = some t := by rw [held]; rfl
  -- The ticket that goes is the one of the call that had the turn.
  obtain ⟨rest, turns⟩ : ∃ rest, m.turns = t :: rest := by
    cases turns : m.turns with
    | nil => simp [turns] at front
    | cons t' rest => exact ⟨rest, by simp_all⟩
  constructor
  case lt_next => grind
  case nodup => grind
  case mem_iff => grind
  case unique => grind
  case first => grind [Place.ticket?]

theorem Turns.keep (turns : Turns m roles) (others : ∀ j, j = i ∨ roles' j = roles j)
    (ticket : (roles' i).place.ticket? = (roles i).place.ticket?)
    (front : ∀ t stage, (roles' i).place = .holding t stage → m.turns.head? = some t)
    (same : m'.turns = m.turns) (next : m'.nextTurn = m.nextTurn) : Turns m' roles' := by
  have tickets := eq_of_others Place.ticket? others ticket
  obtain ⟨lt_next, nodup, mem_iff, unique, first⟩ := turns
  constructor
  case lt_next => grind
  case nodup => grind
  case mem_iff => grind
  case unique => grind
  case first => grind

theorem Held.keep (held : Held Q roles) (others : ∀ j, j = i ∨ roles' j = roles j)
    (outside : ∀ t stage, (roles i).place ≠ .holding t stage)
    (stays : ∀ t stage, (roles' i).place ≠ .holding t stage) (goesOn : ∀ h, Q h → Q' h) :
    Held Q' roles' := by
  obtain ⟨held, free⟩ := held
  constructor
  case held => grind
  case free => grind

theorem Held.of_holder (turns : Turns m roles) (others : ∀ j, j = i ∨ roles' j = roles j) {t : Nat}
    {stage : Stage} (holds : (roles' i).place = .holding t stage)
    (first : m.turns.head? = some t) (owns : (roles i).place.ticket? = some t)
    (fits : Q (some stage)) : Held Q roles' := by
  constructor
  case held =>
    intro j t' stage' other
    obtain rfl | same := others j
    · rw [holds] at other
      cases other
      exact fits
    · rw [same] at other
      have front := turns.first j t' stage' other
      rw [first, Option.some_inj] at front
      subst front
      have := turns.unique i j t owns (by rw [other]; rfl)
      grind
  case free => exact fun nobody => absurd holds (nobody i t stage)

theorem Held.leave (turns : Turns m roles) (others : ∀ j, j = i ∨ roles' j = roles j) {t : Nat}
    {stage : Stage} (held : (roles i).place = .holding t stage) (idle : (roles' i).place.ticket? = none)
    (fits : Q none) : Held Q roles' := by
  have alone : ∀ j t' stage', (roles j).place = .holding t' stage' → i = j :=
    fun _ _ _ other => turns.holder_unique held other
  constructor
  case held => grind [Place.ticket?]
  case free => exact fun _ => fits

/-- While the first ticket belongs to a call that still waits, nobody has the turn. -/
theorem Turns.nobody (turns : Turns m roles) {t : Nat} (front : m.turns.head? = some t)
    (waits : (roles i).place = .queued t) (j : ι) (t' : Nat) (stage : Stage) :
    (roles j).place ≠ .holding t' stage := by
  intro held
  have first := turns.first j t' stage held
  rw [front, Option.some_inj] at first
  subst first
  have same := turns.unique i j t (by rw [waits]; rfl) (by rw [held]; rfl)
  subst same
  rw [waits] at held
  cases held

end Updates

section Acts

variable {s s' : Session σ} {roles roles' : ι → Role} {stage stage' : Stage} {r r' : Role} {i : ι}

/-- What is kept for the end of a migration is all that changes in the order of the calls. -/
theorem runPending_migration (s : Session σ) :
    ∃ kept, (runPending s).migration = { s.migration with inFlight := kept } := by
  unfold runPending
  split
  · rename_i c _
    cases c <;> exact ⟨some none, rfl⟩
  · exact ⟨s.migration.inFlight, rfl⟩

variable [Store σ]

theorem Stage.Act.turns (act : stage.Act s stage' s') :
    s'.migration.turns = s.migration.turns ∧ s'.migration.nextTurn = s.migration.nextTurn := by
  cases act with
  | finish =>
    obtain ⟨kept, same⟩ := runPending_migration s
    rw [same]
    exact ⟨rfl, rfl⟩
  | close =>
    obtain ⟨kept, same⟩ := runPending_migration s
    rw [endUpdate, same]
    exact ⟨rfl, rfl⟩
  | _ => exact ⟨rfl, rfl⟩

theorem Turns.act (turns : Turns s.migration roles) (others : ∀ j, j = i ∨ roles' j = roles j)
    (role : roles i = r) (role' : roles' i = r') (act : Act r s r' s') : Turns s'.migration roles' := by
  cases act with
  | aside alike =>
    rw [alike.migration]
    exact turns.keep others (by rw [role, role']) (by rw [role', ← role]; exact turns.first i) rfl rfl
  | tell => exact turns.keep others (by rw [role, role']; rfl) (by simp [role']) rfl rfl
  | attend => exact turns.keep others (by rw [role, role']; rfl) (by simp [role']) rfl rfl
  | queue => exact turns.queue others (by rw [role]; rfl) (by rw [role']) rfl rfl
  | @proceed t stage stage' b s s' act =>
    refine turns.keep others (by rw [role, role']; rfl) ?_ act.turns.1 act.turns.2
    intro t' stage'' holds
    rw [role'] at holds
    cases holds
    exact turns.first i t stage (by rw [role])
  | @leave t stage => exact turns.leave others (by rw [role]) (by rw [role']; rfl) rfl rfl

theorem Turns.rest {on : Wait} (turns : Turns s.migration roles)
    (others : ∀ j, j = i ∨ roles' j = roles j) (role : roles i = r) (role' : roles' i = r')
    (rest : Rest r s on r') : Turns s.migration roles' := by
  cases rest with
  | message => exact turns.keep others (by rw [role, role']) (by simp [role']) rfl rfl
  | turn => exact turns.keep others (by rw [role, role']) (by simp [role']) rfl rfl
  | @pause t stage =>
    refine turns.keep others (by rw [role, role']; rfl) ?_ rfl rfl
    intro t' stage' holds
    rw [role'] at holds
    cases holds
    exact turns.first i t stage (congrArg Role.place role)

omit [Store σ] in
theorem Turns.wake {on : Wait} (turns : Turns s.migration roles)
    (others : ∀ j, j = i ∨ roles' j = roles j) (role : roles i = r) (role' : roles' i = r')
    (wake : Wake r on s r') : Turns s.migration roles' := by
  cases wake with
  | turn front =>
    refine turns.keep others (by rw [role, role']; rfl) ?_ rfl rfl
    intro t' stage holds
    rw [role'] at holds
    cases holds
    exact front
  | same =>
    rw [eq_of_role others (by rw [role, role'])]
    exact turns

/-- What goes on to hold of the stage of whoever has the turn. -/
structure TurnRule (Q : Session σ → Option Stage → Prop) : Prop where
  same {s s' : Session σ} {holder : Option Stage} : s'.store = s.store →
    s'.migration.inFlight = s.migration.inFlight → Q s holder → Q s' holder
  enter {s : Session σ} : Q s none → Q s (some .fresh)
  leave {s : Session σ} {stage : Stage} : stage = .fresh ∨ stage = .leaving → Q s (some stage) → Q s none
  act {s s' : Session σ} {stage stage' : Stage} :
    stage.Act s stage' s' → Q s (some stage) → Q s' (some stage')
  rest {s : Session σ} {stage stage' : Stage} {on : Wait} :
    stage.Rest s on stage' → Q s (some stage) → Q s (some stage')

namespace TurnRule

variable {Q : Session σ → Option Stage → Prop}

theorem keeps_act (rule : TurnRule Q) (held : Held (Q s) roles) (turns : Turns s.migration roles)
    (others : ∀ j, j = i ∨ roles' j = roles j) (role : roles i = r) (role' : roles' i = r')
    (act : Act r s r' s') : Held (Q s') roles' := by
  cases act with
  | aside alike =>
    have same : ∀ h, Q s h → Q s' h := fun _ => rule.same alike.store (congrArg _ alike.migration)
    rw [eq_of_role others (by rw [role, role'])]
    exact ⟨fun j t stage place => same _ (held.held j t stage place),
      fun nobody => same _ (held.free nobody)⟩
  | tell => exact held.keep others (by simp [role]) (by simp [role']) fun _ => rule.same rfl rfl
  | attend => exact held.keep others (by simp [role]) (by simp [role']) fun _ => rule.same rfl rfl
  | queue => exact held.keep others (by simp [role]) (by simp [role']) fun _ => rule.same rfl rfl
  | @proceed t stage stage' b s s' act =>
    have place : (roles i).place = .holding t stage := congrArg Role.place role
    exact .of_holder turns others (congrArg Role.place role') (turns.first i t stage place)
      (by rw [place]; rfl) (rule.act act (held.held i t stage place))
  | @leave t stage b new s ended =>
    have place : (roles i).place = .holding t stage := congrArg Role.place role
    exact .leave turns others place (by rw [role']; rfl)
      (rule.same (s := s) rfl rfl (rule.leave ended (held.held i t stage place)))

theorem keeps_rest {on : Wait} (rule : TurnRule Q) (held : Held (Q s) roles)
    (turns : Turns s.migration roles) (others : ∀ j, j = i ∨ roles' j = roles j) (role : roles i = r)
    (role' : roles' i = r') (rest : Rest r s on r') : Held (Q s) roles' := by
  cases rest with
  | @pause t stage stage' b s on rest =>
    have place : (roles i).place = .holding t stage := congrArg Role.place role
    exact .of_holder turns others (congrArg Role.place role') (turns.first i t stage place)
      (by rw [place]; rfl) (rule.rest rest (held.held i t stage place))
  | _ =>
    rw [eq_of_role others (by rw [role, role'])]
    exact held

theorem keeps_wake {on : Wait} (rule : TurnRule Q) (held : Held (Q s) roles)
    (turns : Turns s.migration roles) (others : ∀ j, j = i ∨ roles' j = roles j) (role : roles i = r)
    (role' : roles' i = r') (wake : Wake r on s r') : Held (Q s) roles' := by
  cases wake with
  | @turn t b s front =>
    have waits : (roles i).place = .queued t := congrArg Role.place role
    exact .of_holder turns others (congrArg Role.place role') front (by rw [waits]; rfl)
      (rule.enter (held.free (turns.nobody front waits)))
  | same =>
    rw [eq_of_role others (by rw [role, role'])]
    exact held

end TurnRule

/-- What is kept for the end of a migration that is so far. -/
def Stage.inFlight : Stage → Option (Option Continuation)
  | .writing _ _ | .attempting _ _ _ => some (some .configurationChanged)
  | .ending => some none
  | _ => none

/-- What is kept for the end of a migration is what the stage of the holder says, or nothing. -/
def InFlight (m : MigrationState) : Option Stage → Prop
  | some stage => m.inFlight = stage.inFlight
  | none => m.inFlight = none

theorem inFlight_rule : TurnRule fun s : Session σ => InFlight s.migration where
  same {s s' holder} _ same kept := by
    cases holder with
    | none => exact same.trans kept
    | some stage => exact same.trans kept
  enter kept := kept
  leave ended kept := by
    obtain rfl | rfl := ended
    · exact kept
    · exact kept
  act {s s' stage stage'} act kept := by
    cases act with
    | start => rfl
    | close => rfl
    | finish =>
      have begun : s.migration.inFlight = some (some .configurationChanged) := kept
      simp [InFlight, Stage.inFlight, runPending, begun, runContinuation, enqueue]
    | _ => exact kept
  rest rest kept := by
    cases rest with
    | _ => exact kept

end Acts

end LinterClient.Session
