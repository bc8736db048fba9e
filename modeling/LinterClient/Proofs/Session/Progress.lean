import LinterClient.Proofs.Session.Runs

/-!
Every call can be brought to its end.

Whatever happened before, it is enough that calls go on and the user answers: whoever has the turn gives
it back, so every ticket comes to the front.
-/

namespace LinterClient.Session

open Migration (Change Choice Recorded)

variable {σ ι : Type} [Store σ]

section Strides

variable {s s' : Session σ} {roles roles' : ι → Role} {i : ι} {r r' : Role} {t : Nat} {rest : List Nat}

/-- A call that owned the first ticket has it still, or it gave it back. -/
def Passing (t : Nat) (rest : List Nat) (r : Role) (s : Session σ) : Prop :=
  r.place.ticket? = some t ∧ s.migration.turns = t :: rest ∨
    (∀ t' stage, r.place ≠ .holding t' stage) ∧ ∃ more, s.migration.turns = rest ++ more

theorem Act.passing (act : Act r s r' s') (passing : Passing t rest r s) : Passing t rest r' s' := by
  obtain ⟨owns, turns⟩ | ⟨outside, more, turns⟩ := passing
  · cases act with
    | aside alike => exact .inl ⟨owns, (congrArg _ alike.migration).trans turns⟩
    | proceed act => exact .inl ⟨owns, act.turns.1.trans turns⟩
    | leave ended => exact .inr ⟨by simp, [], by simp [turnEnded, turns]⟩
    | _ => cases owns
  · cases act with
    | aside alike => exact .inr ⟨outside, more, (congrArg _ alike.migration).trans turns⟩
    | tell => exact .inr ⟨by simp, more, turns⟩
    | attend => exact .inr ⟨by simp, more, turns⟩
    | queue => exact .inr ⟨by simp, more ++ [s.migration.nextTurn], by simp [takeTicket, turns]⟩
    | proceed => exact absurd rfl (outside _ _)
    | leave => exact absurd rfl (outside _ _)

theorem Rest.passing {on : Wait} (rests : Rest r s on r') (passing : Passing t rest r s) :
    Passing t rest r' s := by
  cases rests with
  | pause =>
    obtain owns | ⟨outside, -⟩ := passing
    · exact .inl owns
    · exact absurd rfl (outside _ _)
  | _ => exact passing

variable [DecidableEq ι]

theorem Moved.passing (moved : Moved s roles (.go i) s' roles')
    (owns : (roles i).place.ticket? = some t) (turns : s.migration.turns = t :: rest) :
    Passing t rest (roles' i) s' := by
  cases moved with
  | waits => exact .inl ⟨owns, turns⟩
  | @goes i r₀ r₁ r s' woken acts rested =>
    rw [Function.update_self]
    have woke : Passing t rest r₀ s := by
      obtain rfl | ⟨on, wake⟩ := woken
      · exact .inl ⟨owns, turns⟩
      · generalize roles i = r at wake owns
        cases wake with
        | turn => exact .inl ⟨owns, turns⟩
        | same => exact .inl ⟨owns, turns⟩
    have ran : Passing t rest r₁ s' := by
      clear rested
      induction acts with
      | none => exact woke
      | more _ act ih => exact Act.passing act ih
    obtain ⟨rfl, -⟩ | ⟨on, rests⟩ := rested
    · exact ran
    · exact rests.passing ran

theorem Moved.others (moved : Moved s roles (.go i) s' roles') {j : ι} (other : j ≠ i) :
    roles' j = roles j := by
  cases moved with
  | waits => rfl
  | goes => exact Function.update_of_ne other _ _

end Strides

/-- Whether a move is one of the calls or of the user. -/
def Move.Plain : Move σ ι → Prop
  | .go _ | .answer _ _ => True
  | _ => False

variable [DecidableEq ι]

/-- What calls and the user can bring about. -/
def Calls.CanReach (crew : Calls σ ι) (P : Calls σ ι → Prop) : Prop :=
  ∃ moves, (∀ m ∈ moves, m.Plain) ∧ P (crew.after moves)

namespace Calls.CanReach

variable {crew : Calls σ ι} {P Q : Calls σ ι → Prop}

omit [Store σ] in
theorem now (holds : P crew) : crew.CanReach P := ⟨[], nofun, holds⟩

omit [Store σ] in
theorem move {m : Move σ ι} (plain : m.Plain) (reaches : (crew.move m).CanReach P) :
    crew.CanReach P := by
  obtain ⟨moves, plains, holds⟩ := reaches
  exact ⟨m :: moves, List.forall_mem_cons.mpr ⟨plain, plains⟩, holds⟩

omit [Store σ] in
theorem go (i : ι) (reaches : (crew.move (.go i)).CanReach P) : crew.CanReach P :=
  move (m := .go i) trivial reaches

omit [Store σ] in
theorem trans (reaches : crew.CanReach P) (next : ∀ crew', P crew' → crew'.CanReach Q) :
    crew.CanReach Q := by
  obtain ⟨moves, plain, holds⟩ := reaches
  obtain ⟨moves', plain', holds'⟩ := next _ holds
  refine ⟨moves ++ moves', fun m member => ?_, ?_⟩
  · exact (List.mem_append.mp member).elim (plain m) (plain' m)
  · rwa [Calls.after, List.foldl_append]

omit [Store σ] in
theorem mono (reaches : crew.CanReach P) (weaker : ∀ crew', P crew' → Q crew') : crew.CanReach Q :=
  reaches.trans fun crew' holds => .now (weaker crew' holds)

end Calls.CanReach

namespace Keeping

variable {calls : ι → Call} {crew : Calls σ ι} {roles : ι → Role} {i : ι} {t : Nat} {rest : List Nat}

/-- A message that a call waits for has an answer, or the user can give one. -/
theorem answered (keeping : Keeping calls crew roles) {m : Nat}
    (waits : (roles i).place.message? = some m) :
    crew.CanReach fun crew' => crew'.tasks = crew.tasks ∧ Keeping calls crew' roles ∧
      crew'.state.migration = crew.state.migration ∧ ready (.answer m) crew'.state = true := by
  by_cases answered : m ∈ crew.state.window.answers.map (·.1)
  · refine .now ⟨rfl, keeping, rfl, ?_⟩
    show (crew.state.window.answers.lookup m).isSome = true
    rw [Option.isSome_iff_ne_none, ne_eq, List.lookup_eq_none_iff]
    obtain ⟨e, member, rfl⟩ := List.mem_map.mp answered
    exact fun nowhere => by simpa using nowhere e member
  · have open_ := (List.mem_append.mp (keeping.ordered.messages.mem i m waits)).resolve_right answered
    obtain ⟨e, member, rfl⟩ := List.mem_map.mp open_
    refine .move (m := .answer e.1 none) trivial (.now ⟨rfl, ?_, answerMessage_migration _ _ _, ?_⟩)
    · exact ⟨keeping.stands, keeping.begins, keeping.ordered.answer e.1 none⟩
    · have unread : crew.state.window.unanswered.any (·.1 = e.1) = true :=
        List.any_eq_true.mpr ⟨e, member, decide_eq_true rfl⟩
      show ((answerMessage e.1 none crew.state).window.answers.lookup e.1).isSome = true
      rw [answerMessage, if_pos unread]
      simp [List.lookup_append]

/-- The wait of a call can end, if it is not for somebody else's turn. -/
theorem readied (keeping : Keeping calls crew roles) {on : Wait} {next : Task σ Answer}
    (task : crew.tasks i = .wait on next)
    (first : ∀ t, (roles i).place = .queued t → crew.state.migration.turns.head? = some t) :
    crew.CanReach fun crew' => crew'.tasks = crew.tasks ∧ Keeping calls crew' roles ∧
      crew'.state.migration = crew.state.migration ∧ ready on crew'.state = true := by
  obtain ⟨starts, -⟩ | ⟨on', next', r₁, s₁, task', rest⟩ := keeping.rests i
  · exact absurd task (starts on next)
  rw [task] at task'
  cases task'
  generalize role : roles i = r at rest first
  cases rest with
  | message => exact keeping.answered (i := i) (by rw [role]; rfl)
  | @turn t => exact .now ⟨rfl, keeping, rfl, decide_eq_true (first t rfl)⟩
  | pause rest =>
    cases rest with
    | question => exact keeping.answered (i := i) (by rw [role]; rfl)
    | silencing => exact .now ⟨rfl, keeping, rfl, rfl⟩
    | attempt => exact .now ⟨rfl, keeping, rfl, rfl⟩

/-- The turn passes on: the call that owns the first ticket can give it back, and the other calls stand
where they stood. -/
theorem passes (keeping : Keeping calls crew roles) (owns : (roles i).place.ticket? = some t)
    (turns : crew.state.migration.turns = t :: rest) :
    crew.CanReach fun crew' => ∃ roles' more, Keeping calls crew' roles' ∧
      crew'.state.migration.turns = rest ++ more ∧
      ∀ j, j ≠ i → crew'.tasks j = crew.tasks j ∧ roles' j = roles j := by
  obtain ⟨-, idle⟩ | ⟨on, next, r₁, s₁, task, -⟩ := keeping.rests i
  · rw [idle] at owns
    cases owns
  -- The program of the call gets smaller with every stride.
  revert crew roles
  refine Program.stop_induction (motive := fun p => ∀ {crew : Calls σ ι} {roles : ι → Role},
    Keeping calls crew roles → (roles i).place.ticket? = some t →
      crew.state.migration.turns = t :: rest → crew.tasks i = p →
        crew.CanReach fun crew' => ∃ roles' more, Keeping calls crew' roles' ∧
          crew'.state.migration.turns = rest ++ more ∧
          ∀ j, j ≠ i → crew'.tasks j = crew.tasks j ∧ roles' j = roles j) ?_ ?_ (.wait on next) s₁
  · intro a crew roles keeping owns _ task
    rw [keeping.begins i (by rw [task]; exact Program.begins_pure a)] at owns
    cases owns
  · intro on next ih crew roles keeping owns turns task
    refine (keeping.readied task fun t' waits => ?_).trans fun crew' reached => ?_
    · rw [waits] at owns
      rw [turns, List.head?_cons]
      exact owns.symm
    obtain ⟨tasks, keeping', migration, isReady⟩ := reached
    obtain ⟨roles', keeping'', moved⟩ := keeping'.go i
    have stop := Crew.go_tasks_of_ready (by rw [tasks, task]) isReady
    have others : ∀ j, j ≠ i → (crew'.move (.go i)).tasks j = crew.tasks j ∧ roles' j = roles j :=
      fun j other => ⟨(Crew.go_tasks_of_ne other).trans (congrFun tasks j), moved.others other⟩
    obtain ⟨owns', turns'⟩ | ⟨-, more, turns'⟩ := moved.passing owns (by rw [migration, turns])
    · refine .go i ((ih _ keeping'' owns' turns' stop).mono ?_)
      rintro final ⟨roles'', more, kept, passed, same⟩
      refine ⟨roles'', more, kept, passed, fun j other => ?_⟩
      exact ⟨(same j other).1.trans (others j other).1, (same j other).2.trans (others j other).2⟩
    · exact .go i (.now ⟨roles', more, keeping'', turns', others⟩)

theorem comesFirst (keeping : Keeping calls crew roles) (waits : (roles i).place = .queued t) :
    crew.CanReach fun crew' => ∃ roles', Keeping calls crew' roles' ∧
      crew'.tasks i = crew.tasks i ∧ roles' i = roles i ∧ crew'.state.migration.turns.head? = some t := by
  have owns : (roles i).place.ticket? = some t := by rw [waits]; rfl
  obtain ⟨before, after, turns⟩ :=
    List.append_of_mem ((keeping.ordered.turns.mem_iff t).mpr ⟨i, owns⟩)
  -- The owner of each ticket before it gives the turn back, while this call stands still.
  induction before generalizing crew roles after with
  | nil => exact .now ⟨roles, keeping, rfl, rfl, by rw [turns]; rfl⟩
  | cons h before ih =>
    obtain ⟨j, holds⟩ := (keeping.ordered.turns.mem_iff h).mp (by rw [turns]; simp)
    have other : i ≠ j := by
      rintro rfl
      rw [owns, Option.some_inj] at holds
      have nodup := keeping.ordered.turns.nodup
      simp [turns, holds] at nodup
    refine (keeping.passes holds turns).trans ?_
    rintro crew' ⟨roles', more, keeping', turns', same⟩
    obtain ⟨task, role⟩ := same i other
    have nearer : crew'.state.migration.turns = before ++ t :: (after ++ more) :=
      turns'.trans (List.append_assoc before (t :: after) more)
    refine (ih keeping' (by rw [role, waits]) (by rw [role, owns]) _ nearer).mono ?_
    rintro final ⟨roles'', kept, task', role', front⟩
    exact ⟨roles'', kept, task'.trans task, role'.trans role, front⟩

theorem completes (keeping : Keeping calls crew roles) (i : ι) :
    crew.CanReach fun crew' => (crew'.tasks i).answer?.isSome = true := by
  -- As above, but a call may take the turn several times, and has to wait for it each time.
  have induct := Program.stop_induction (motive := fun p : Task σ Answer =>
    ∀ {crew : Calls σ ι} {roles : ι → Role}, Keeping calls crew roles → crew.tasks i = p →
      crew.CanReach fun crew' => (crew'.tasks i).answer?.isSome = true) ?_ ?_
  · obtain ⟨starts, -⟩ | ⟨on, next, r₁, s₁, task, -⟩ := keeping.rests i
    · obtain ⟨roles', keeping', -⟩ := keeping.go i
      exact .go i (induct (crew.tasks i) crew.state keeping' (Crew.go_tasks_of_begins starts))
    · exact induct (.wait on next) crew.state keeping task
  · intro a crew roles _ task
    exact .now (by rw [task]; rfl)
  · intro on next ih crew roles keeping task
    have front : crew.CanReach fun crew' => ∃ roles', Keeping calls crew' roles' ∧
        crew'.tasks i = crew.tasks i ∧
        ∀ t, (roles' i).place = .queued t → crew'.state.migration.turns.head? = some t := by
      cases place : (roles i).place with
      | queued t =>
        refine (keeping.comesFirst place).mono ?_
        rintro crew' ⟨roles', keeping', task', role, front⟩
        refine ⟨roles', keeping', task', fun t' waits => ?_⟩
        rw [role, place] at waits
        cases waits
        exact front
      | _ => exact .now ⟨roles, keeping, rfl, by simp [place]⟩
    refine front.trans ?_
    rintro crew' ⟨roles', keeping', task', first⟩
    refine (keeping'.readied (task'.trans task) first).trans ?_
    rintro crew'' ⟨tasks, keeping'', -, isReady⟩
    obtain ⟨roles'', kept, -⟩ := keeping''.go i
    have waits : crew''.tasks i = .wait on next := by rw [tasks, task', task]
    exact .go i (ih _ kept (Crew.go_tasks_of_ready waits isReady))

end Keeping

end LinterClient.Session
