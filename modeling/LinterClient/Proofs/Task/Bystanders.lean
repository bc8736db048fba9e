import Mathlib.Logic.Relation
import LinterClient.Proofs.Task.Interference
import LinterClient.Task.System

/-!
Tasks that only ever change the state in certain ways.

What is so of a task in each state it may find goes over to a system of such tasks, in whichever order
they run.
-/

namespace LinterClient

namespace Program

variable {State Wait Job α β : Type} (may : State → State → Prop) (starts : Job → Prop)

/-- Whatever a program finds after its waits: it changes the state as it may, starts jobs that it may
start, and ends with a good answer. -/
def Behaves (post : α → Prop) : Program State Wait Job α → State → Prop
  | .done a, _ => post a
  | .read next, s => (next s).Behaves post s
  | .change f next, s => may s (f s) ∧ next.Behaves post (f s)
  | .wait _ next, _ => ∀ s, next.Behaves post s
  | .spawn job next, s => starts job ∧ next.Behaves post s

variable {may starts} {post : α → Prop} {s : State}

theorem behaves_bind {p : Program State Wait Job α} {f : α → Program State Wait Job β}
    {post : β → Prop} (first : p.Behaves may starts (fun a => ∀ s, (f a).Behaves may starts post s) s) :
    (p >>= f).Behaves may starts post s := by
  show (p.bind f).Behaves may starts post s
  induction p generalizing s with
  | done a => exact first s
  | read next ih => exact ih s first
  | change g next ih => exact ⟨first.1, ih first.2⟩
  | wait on next ih => exact fun s => ih (first s)
  | spawn job next ih => exact ⟨first.1, ih first.2⟩

theorem Behaves.mono {post' : α → Prop} {p : Program State Wait Job α}
    (behaves : p.Behaves may starts post s) (weaker : ∀ a, post a → post' a) :
    p.Behaves may starts post' s := by
  induction p generalizing s with
  | done a => exact weaker a behaves
  | read next ih => exact ih s behaves
  | change g next ih => exact ⟨behaves.1, ih behaves.2⟩
  | wait on next ih => exact fun s => ih (behaves s)
  | spawn job next ih => exact ⟨behaves.1, ih behaves.2⟩

theorem Behaves.allow {may' : State → State → Prop} {starts' : Job → Prop}
    {p : Program State Wait Job α} (behaves : p.Behaves may starts post s)
    (changes : ∀ s s', may s s' → may' s s') (jobs : ∀ job, starts job → starts' job) :
    p.Behaves may' starts' post s := by
  induction p generalizing s with
  | done a => exact behaves
  | read next ih => exact ih s behaves
  | change g next ih => exact ⟨changes _ _ behaves.1, ih behaves.2⟩
  | wait on next ih => exact fun s => ih (behaves s)
  | spawn job next ih => exact ⟨jobs job behaves.1, ih behaves.2⟩

/-- Among others who do what it may, such a program makes of a state what may be made of it. -/
theorem Behaves.amid {p : Program State Wait Job α} (refl : ∀ s, may s s)
    (trans : ∀ {s s' s''}, may s s' → may s' s'' → may s s'') (behaves : p.Behaves may starts post s)
    {others : Nat → State → State} (polite : ∀ t ∈ (p.amid others s).turns, may t.left t.found) :
    may s (p.amid others s).final := by
  induction p generalizing s others with
  | done a => exact refl s
  | read next ih => exact ih s behaves polite
  | change f next ih => exact trans behaves.1 (ih behaves.2 polite)
  | wait on next ih =>
    have waited : may s (others 0 s) := polite _ List.mem_cons_self
    exact trans waited (ih (behaves _) fun t member => polite t (List.mem_cons_of_mem _ member))
  | spawn job next ih => exact ih behaves.2 polite

/-- Up to its next wait, such a program does what it may. -/
theorem Behaves.advance {p : Program State Wait Job α} (refl : ∀ s, may s s)
    (trans : ∀ {s s' s''}, may s s' → may s' s'' → may s s'') (behaves : p.Behaves may starts post s) :
    let stop := p.advance s
    may s stop.2.1 ∧ (∀ job ∈ stop.2.2, starts job) ∧
      match stop.1 with
      | .done a => post a
      | .waiting _ next => ∀ s, next.Behaves may starts post s := by
  induction p generalizing s with
  | done a => exact ⟨refl s, nofun, behaves⟩
  | read next ih => exact ih s behaves
  | change f next ih =>
    obtain ⟨changed, jobs, rest⟩ := ih behaves.2
    exact ⟨trans behaves.1 changed, jobs, rest⟩
  | wait on next ih => exact ⟨refl s, nofun, behaves⟩
  | spawn job next ih =>
    obtain ⟨changed, jobs, rest⟩ := ih behaves.2
    refine ⟨changed, fun other member => ?_, rest⟩
    rcases List.mem_cons.mp member with rfl | later
    · exact behaves.1
    · exact jobs other later

/-- What is left of a whole after its first part ended. -/
theorem Behaves.rest {p : Program State Wait Job α} {f : α → Program State Wait Job β} {post : β → Prop}
    (behaves : (p >>= f).Behaves may starts post s) {a : α} {s' : State} {jobs : List Job}
    (ended : p.advance s = (.done a, s', jobs)) : (f a).Behaves may starts post s' := by
  replace behaves : (p.bind f).Behaves may starts post s := behaves
  induction p generalizing s jobs with
  | done b =>
    cases ended
    exact behaves
  | read next ih => exact ih s ended behaves
  | change g next ih => exact ih ended behaves.2
  | wait on next => cases ended
  | spawn job next ih =>
    rcases went : next.advance s with ⟨pause, s'', more⟩
    rw [Program.advance, went] at ended
    cases ended
    exact ih went behaves.2

/-- Whatever a program finds, also at its start. -/
def Always (may : State → State → Prop) (starts : Job → Prop) (post : α → Prop)
    (p : Program State Wait Job α) : Prop :=
  ∀ s, p.Behaves may starts post s

namespace Always

/-- Between two goes nothing is left to be done before a wait. -/
theorem resume {p : Program State Wait Job α} (always : Always may starts post p) :
    Always may starts post (System.resume p) := by
  cases p with
  | wait on next => exact fun s => always s s
  | _ => exact always

theorem done {a : α} (holds : post a) :
    Always may starts post (.done a : Program State Wait Job α) :=
  fun _ => holds

theorem bind {post : β → Prop} {p : Program State Wait Job α} {f : α → Program State Wait Job β}
    (first : Always may starts (fun _ => True) p) (rest : ∀ a, Always may starts post (f a)) :
    Always may starts post (p >>= f) :=
  fun s => behaves_bind ((first s).mono fun a _ => rest a)

theorem get : Always may starts (fun _ => True) (.get : Program State Wait Job State) :=
  fun _ => trivial

theorem modify {f : State → State} (allowed : ∀ s, may s (f s)) :
    Always may starts (fun _ => True) (.modify f : Program State Wait Job Unit) :=
  fun s => ⟨allowed s, trivial⟩

theorem modifyGet {f : State → α × State} (allowed : ∀ s, may s (f s).2) :
    Always may starts (fun _ => True) (.modifyGet f : Program State Wait Job α) :=
  fun s => ⟨allowed s, trivial⟩

theorem await (on : Wait) : Always may starts (fun _ => True) (.await on : Program State Wait Job Unit) :=
  fun _ _ => trivial

theorem start {job : Job} (allowed : starts job) :
    Always may starts (fun _ => True) (.start job : Program State Wait Job Unit) :=
  fun _ => ⟨allowed, trivial⟩

theorem forIn (l : List β) {f : β → Program State Wait Job Unit}
    (each : ∀ x, Always may starts (fun _ => True) (f x)) :
    Always may starts (fun _ => True) (forIn l PUnit.unit fun x _ => do
      f x
      pure (ForInStep.yield PUnit.unit) : Program State Wait Job PUnit) := by
  induction l with
  | nil => exact done trivial
  | cons x l ih =>
    rw [List.forIn_cons]
    refine bind (bind (each x) fun _ => done trivial) fun step => ?_
    cases step with
    | done => exact done trivial
    | yield => exact ih

end Always

end Program

namespace System

variable {State Wait Job : Type} {r : Rules State Wait Job} {may : State → State → Prop}
variable {starts : Job → Prop} {sys sys' : System State Wait Job}

/-- All tasks do what they may, and go on only with jobs that may be started. -/
def Behaves (may : State → State → Prop) (starts : Job → Prop) (sys : System State Wait Job) : Prop :=
  ∀ p ∈ sys.tasks, ∀ s, p.Behaves may starts (fun next => ∀ job ∈ next, starts job) s

theorem Behaves.step (refl : ∀ s, may s s) (trans : ∀ {s s' s''}, may s s' → may s' s'' → may s s'')
    (jobs : ∀ job, starts job → ∀ s, (r.run job).Behaves may starts (fun next => ∀ job ∈ next, starts job) s)
    (behaves : sys.Behaves may starts) (steps : sys.Steps r sys') :
    may sys.state sys'.state ∧ sys'.Behaves may starts := by
  obtain ⟨i, stepped⟩ := steps
  rw [System.step] at stepped
  split at stepped
  · cases stepped
  rename_i p task
  split at stepped
  rotate_left
  · cases stepped
  cases stepped
  have resumed : (resume p).Behaves may starts (fun next => ∀ job ∈ next, starts job) sys.state :=
    Program.Always.resume (behaves p (List.mem_of_getElem? task)) sys.state
  obtain ⟨changed, started, rest⟩ := resumed.advance refl trans
  refine ⟨changed, fun q member => ?_⟩
  rcases List.mem_append.mp member with old | new
  · rcases List.mem_append.mp old with early | late
    · rcases List.mem_append.mp early with before | here
      · exact behaves q (List.mem_of_mem_take before)
      · revert rest here
        generalize ((resume p).advance sys.state).1 = stop
        intro rest here
        cases stop with
        | done next =>
          cases next with
          | none => cases here
          | some job =>
            rw [List.mem_singleton.mp here]
            exact jobs job (rest job rfl)
        | waiting on next =>
          rw [List.mem_singleton.mp here]
          exact fun _ => rest
    · exact behaves q (List.mem_of_mem_drop late)
  · obtain ⟨job, listed, rfl⟩ := List.mem_map.mp new
    exact jobs job (started job listed)

/-- In every schedule, what such a system makes of a state is what may be made of it. -/
theorem Behaves.steps (refl : ∀ s, may s s) (trans : ∀ {s s' s''}, may s s' → may s' s'' → may s s'')
    (jobs : ∀ job, starts job → ∀ s, (r.run job).Behaves may starts (fun next => ∀ job ∈ next, starts job) s)
    (behaves : sys.Behaves may starts) (steps : Relation.ReflTransGen (Steps r) sys sys') :
    may sys.state sys'.state ∧ sys'.Behaves may starts := by
  induction steps with
  | refl => exact ⟨refl sys.state, behaves⟩
  | tail _ last ih =>
    obtain ⟨changed, behaves⟩ := ih
    obtain ⟨changed', behaves⟩ := behaves.step refl trans jobs last
    exact ⟨trans changed changed', behaves⟩

end System

end LinterClient
