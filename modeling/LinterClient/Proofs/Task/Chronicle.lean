import LinterClient.Proofs.Task.Crew
import LinterClient.Proofs.Task.Interference

/-!
What is noted of one task among others.

Notes are taken of each change that the task makes and of each wait that ends. What a task ensures is
said of the notes and the state together, under a condition on what the others do while it waits.
-/

namespace LinterClient

/-- A state, and the notes that were taken on the way to it. -/
structure Chronicle (State Entry : Type) where
  state : State
  journal : List Entry

/-- Which notes are taken. -/
structure Watch (State Wait Entry : Type) where
  changed : State → State → List Entry
  woke : Wait → State → List Entry

namespace Chronicle

variable {State Wait Entry : Type}

def change (watch : Watch State Wait Entry) (s : State) (c : Chronicle State Entry) :
    Chronicle State Entry :=
  ⟨s, c.journal ++ watch.changed c.state s⟩

def wake (watch : Watch State Wait Entry) (on : Wait) (s : State) (c : Chronicle State Entry) :
    Chronicle State Entry :=
  ⟨s, c.journal ++ watch.woke on s⟩

end Chronicle

namespace Program

variable {State Wait Job Entry Role α β : Type} (watch : Watch State Wait Entry)

/-- Runs a task to its end as `amid` does, and takes notes. -/
def chronicle (others : Nat → State → State) :
    Program State Wait Job α → Chronicle State Entry → Chronicle State Entry
  | .done _, c => c
  | .read next, c => chronicle others (next c.state) c
  | .change f next, c => chronicle others next (c.change watch (f c.state))
  | .wait on next, c =>
    chronicle (fun n => others (n + 1)) next (c.wake watch on (others 0 c.state))
  | .spawn _ next, c => chronicle others next c

theorem chronicle_state (others : Nat → State → State) (p : Program State Wait Job α)
    (c : Chronicle State Entry) :
    (p.chronicle watch others c).state = (p.amid others c.state).final := by
  induction p generalizing others c with
  | done => rfl
  | read next ih => exact ih c.state others c
  | change f next ih => exact ih others _
  | wait on next ih => exact ih _ _
  | spawn job next ih => exact ih others c

/-- The notes of a task go on with those of what comes after it. -/
theorem chronicle_bind (others : Nat → State → State) (p : Program State Wait Job α)
    (f : α → Program State Wait Job β) (c : Chronicle State Entry) :
    (p >>= f).chronicle watch others c =
      let first := p.amid others c.state
      (f first.value).chronicle watch (fun n => others (n + first.turns.length))
        (p.chronicle watch others c) := by
  show (p.bind f).chronicle watch others c = _
  induction p generalizing others c with
  | done => rfl
  | read next ih => exact ih c.state others c
  | change g next ih => exact ih others _
  | wait on next ih =>
    simp only [bind, chronicle, amid, ih, List.length_cons, Nat.add_assoc]
    rfl
  | spawn job next ih => exact ih others c

variable (rely : Wait → State → State → Prop)

/-- However the others use its waits, within what is relied on, a task ends as is said. -/
def Ensures (post : α → Chronicle State Entry → Prop) :
    Program State Wait Job α → Chronicle State Entry → Prop
  | .done a, c => post a c
  | .read next, c => (next c.state).Ensures post c
  | .change f next, c => next.Ensures post (c.change watch (f c.state))
  | .wait on next, c => ∀ s, rely on c.state s → next.Ensures post (c.wake watch on s)
  | .spawn _ next, c => next.Ensures post c

variable {watch rely} {post : α → Chronicle State Entry → Prop} {c : Chronicle State Entry}

theorem Ensures.chronicle {p : Program State Wait Job α} (ensures : p.Ensures watch rely post c)
    (others : Nat → State → State)
    (relied : ∀ t ∈ (p.amid others c.state).turns, rely t.on t.left t.found) :
    post (p.amid others c.state).value (p.chronicle watch others c) := by
  induction p generalizing others c with
  | done a => exact ensures
  | read next ih => exact ih c.state ensures others relied
  | change f next ih => exact ih ensures others relied
  | wait on next ih =>
    exact ih (ensures _ (relied _ List.mem_cons_self)) _ fun t member =>
      relied t (List.mem_cons_of_mem _ member)
  | spawn job next ih => exact ih ensures others relied

theorem Ensures.mono {post' : α → Chronicle State Entry → Prop} {p : Program State Wait Job α}
    (ensures : p.Ensures watch rely post c) (weaker : ∀ a c, post a c → post' a c) :
    p.Ensures watch rely post' c := by
  induction p generalizing c with
  | done a => exact weaker a c ensures
  | read next ih => exact ih c.state ensures
  | change f next ih => exact ih ensures
  | wait on next ih => exact fun s relied => ih (ensures s relied)
  | spawn job next ih => exact ih ensures

theorem ensures_pure {a : α} :
    (pure a : Program State Wait Job α).Ensures watch rely post c ↔ post a c := Iff.rfl

theorem ensures_get {post : State → Chronicle State Entry → Prop} :
    (get : Program State Wait Job State).Ensures watch rely post c ↔ post c.state c := Iff.rfl

theorem ensures_modify {post : Unit → Chronicle State Entry → Prop} {f : State → State} :
    (modify f : Program State Wait Job Unit).Ensures watch rely post c ↔
      post () (c.change watch (f c.state)) := Iff.rfl

theorem ensures_modifyGet {f : State → α × State} :
    (modifyGet f : Program State Wait Job α).Ensures watch rely post c ↔
      post (f c.state).1 (c.change watch (f c.state).2) := Iff.rfl

theorem ensures_await {post : Unit → Chronicle State Entry → Prop} {on : Wait} :
    (await on : Program State Wait Job Unit).Ensures watch rely post c ↔
      ∀ s, rely on c.state s → post () (c.wake watch on s) := Iff.rfl

theorem ensures_bind {p : Program State Wait Job α} {f : α → Program State Wait Job β}
    {post : β → Chronicle State Entry → Prop} :
    (p >>= f).Ensures watch rely post c ↔
      p.Ensures watch rely (fun a c => (f a).Ensures watch rely post c) c := by
  show (p.bind f).Ensures watch rely post c ↔ _
  induction p generalizing c with
  | done a => rfl
  | read next ih => exact ih c.state
  | change g next ih => exact ih
  | wait on next ih => exact forall_congr' fun s => forall_congr' fun _ => ih
  | spawn job next ih => exact ih

/-- A task that keeps to a role ensures whatever each act and each wait of its role ensures. -/
theorem Keeps.ensures {conduct : Conduct State Wait Role} {ready : Wait → State → Bool}
    {ends : α → Role → State → Prop} {relates : Chronicle State Entry → Chronicle State Entry → Prop}
    (refl : ∀ c, relates c c) (trans : ∀ {c c' c''}, relates c c' → relates c' c'' → relates c c'')
    (act : ∀ {r r' c s}, conduct.act r c.state r' s → relates c (c.change watch s))
    (wait : ∀ {r r' on c s}, conduct.rest r c.state on r' → rely on c.state s →
      relates c (c.wake watch on s))
    (readied : ∀ {on s s'}, rely on s s' → ready on s' = true) {p : Program State Wait Job α} {r : Role}
    (keeps : p.Keeps conduct ready ends r c.state) :
    p.Ensures watch rely (fun _ c' => relates c c') c := by
  induction p generalizing r c with
  | done a => exact refl c
  | read next ih => exact ih c.state keeps
  | change f next ih =>
    obtain ⟨r', acts, keeps⟩ := keeps
    exact (ih (c := c.change watch (f c.state)) keeps).mono fun _ _ later => trans (act acts) later
  | wait on next ih =>
    obtain ⟨r', rests, goes⟩ := keeps
    intro s relied
    obtain ⟨r'', -, keeps⟩ := goes s (readied relied)
    exact (ih (c := c.wake watch on s) keeps).mono fun _ _ later => trans (wait rests relied) later
  | spawn job next ih => exact ih keeps

end Program

end LinterClient
