import LinterClient.Task.Program

/-!
One task among others.

The others are known by what they do to the shared state while the task waits. A law for whatever they
do holds for every schedule of every set of tasks.
-/

namespace LinterClient.Program

variable {State Wait Job α β : Type}

/-- One wait of a task: the state that it left, and the one that it found when it went on. -/
structure Turn (State Wait : Type) where
  on : Wait
  left : State
  found : State

/-- What a task did: its waits in order, its answer, and the state at its end. -/
structure Course (State Wait α : Type) where
  turns : List (Turn State Wait)
  value : α
  final : State

/-- Runs a task to its end. The others change the state in each of its waits, which are counted. -/
def amid (others : Nat → State → State) :
    Program State Wait Job α → State → Course State Wait α
  | .done a, s => ⟨[], a, s⟩
  | .read next, s => amid others (next s) s
  | .change f next, s => amid others next (f s)
  | .wait on next, s =>
    let rest := amid (fun n => others (n + 1)) next (others 0 s)
    ⟨⟨on, s, others 0 s⟩ :: rest.turns, rest.value, rest.final⟩
  | .spawn _ next, s => amid others next s

/-- What comes after a program that ended goes on from the state at that end. -/
theorem advance_bind_of_done {p : Program State Wait Job α} {f : α → Program State Wait Job β}
    {s s' : State} {a : α} (ended : p.advance s = (.done a, s', [])) :
    (p >>= f).advance s = (f a).advance s' := by
  show (p.bind f).advance s = _
  induction p generalizing s with
  | done b =>
    cases ended
    rfl
  | read next ih => exact ih s ended
  | change g next ih => exact ih ended
  | wait on next => cases ended
  | spawn job next =>
    have nothing : job :: (next.advance s).2.2 = [] := congrArg (·.2.2) ended
    cases nothing

/-- Between two waits a task runs as it does among scheduled ones. -/
theorem amid_eq_advance (others : Nat → State → State) (p : Program State Wait Job α) (s : State) :
    p.amid others s =
      match p.advance s with
      | (.done a, s', _) => ⟨[], a, s'⟩
      | (.waiting on next, s', _) =>
        let rest := next.amid (fun n => others (n + 1)) (others 0 s')
        ⟨⟨on, s', others 0 s'⟩ :: rest.turns, rest.value, rest.final⟩ := by
  induction p generalizing s with
  | done => rfl
  | read next ih => exact ih s s
  | change f next ih => exact ih (f s)
  | wait => rfl
  | spawn job next ih =>
    rw [amid, ih s, advance]
    rcases next.advance s with ⟨_ | _, _, _⟩ <;> rfl

/-- What a task finds after a wait is what the others made of what it left. -/
theorem found_of_mem_turns {others : Nat → State → State} {p : Program State Wait Job α} {s : State}
    {t : Turn State Wait} (member : t ∈ (p.amid others s).turns) : ∃ n, t.found = others n t.left := by
  induction p generalizing others s with
  | done => cases member
  | read next ih => exact ih s member
  | change f next ih => exact ih member
  | wait on next ih =>
    rcases List.mem_cons.mp member with rfl | later
    · exact ⟨0, rfl⟩
    · obtain ⟨n, found⟩ := ih later
      exact ⟨n + 1, found⟩
  | spawn job next ih => exact ih member

@[simp] theorem amid_pure (others : Nat → State → State) (a : α) (s : State) :
    (pure a : Program State Wait Job α).amid others s = ⟨[], a, s⟩ := rfl

@[simp] theorem amid_get (others : Nat → State → State) (s : State) :
    (get : Program State Wait Job State).amid others s = ⟨[], s, s⟩ := rfl

@[simp] theorem amid_modify (others : Nat → State → State) (f : State → State) (s : State) :
    (modify f : Program State Wait Job Unit).amid others s = ⟨[], (), f s⟩ := rfl

@[simp] theorem amid_modifyGet (others : Nat → State → State) (f : State → α × State) (s : State) :
    (modifyGet f : Program State Wait Job α).amid others s = ⟨[], (f s).1, (f s).2⟩ := rfl

@[simp] theorem amid_await (others : Nat → State → State) (on : Wait) (s : State) :
    (await on : Program State Wait Job Unit).amid others s =
      ⟨[⟨on, s, others 0 s⟩], (), others 0 s⟩ := rfl

@[simp] theorem amid_bind (others : Nat → State → State) (p : Program State Wait Job α)
    (f : α → Program State Wait Job β) (s : State) :
    (p >>= f).amid others s =
      let first := p.amid others s
      let rest := (f first.value).amid (fun n => others (n + first.turns.length)) first.final
      ⟨first.turns ++ rest.turns, rest.value, rest.final⟩ := by
  show (p.bind f).amid others s = _
  induction p generalizing others s with
  | done => rfl
  | read next ih => exact ih s others s
  | change g next ih => exact ih others (g s)
  | wait on next ih =>
    simp only [bind, amid, ih]
    simp only [List.length_cons, List.cons_append, Nat.add_assoc]
  | spawn job next ih => exact ih others s

end LinterClient.Program
