import LinterClient.Proofs.Session.Deeds

/-!
Which documents a server knows, and what the gate says of them.

The two agree once the client has reacted to the last change of the settings, and stay in agreement but for
two things: failed probes that are forgotten without another look at the documents, and a failed probe
of a document that the server should know in any case.
-/

namespace LinterClient.Session

variable {σ : Type} [Host σ]

/-- An operation after which the marks are no longer what the gate says. -/
def Deed.Unsettles (gate : σ) (deed : Deed σ) (l : Life σ) : Prop :=
  match deed.operation with
  | .filesChanged _ => Revived gate l
  | .work => ∃ uri rest, l.state.commands = .probeFailed uri :: rest ∧ Needed gate uri l
  | _ => False

/-- The next thing that is done is to react to a change of the settings. -/
def Refreshes (l : Life σ) (deeds : List (Deed σ)) : Prop :=
  ∃ deed rest, deeds = deed :: rest ∧ deed.operation = .work ∧
    ∃ commands, l.state.commands = .configurationChanged :: commands

section Deeds

variable {urls : Set Url} {known : σ → Prop} {gate : σ} {l l' : Life σ} {deed : Deed σ} {uri : Url}
variable {d : OpenDocument}

theorem Deed.Orderly.continues (apart : Set.InjOn Url.text urls) (sound : Sound urls l)
    (orderly : deed.Orderly urls known l) : Continues l (l.follow deed) :=
  orderly.keeps (P := fun l' => Continues l l') apart sound
    (fun _ _ _ step before => before.trans step.continues)
    (fun _ _ _ before => before.trans (.of_connections rfl)) (.refl l)

theorem Tacit.follows_iff (quiet : Tacit known l l') : Follows gate l' ↔ Follows gate l := by
  rw [Follows, Agrees, quiet.server, quiet.documents, quiet.failures]
  rfl

theorem Tacit.needed_iff (quiet : Tacit known l l') : Needed gate uri l' ↔ Needed gate uri l := by
  rw [Needed, quiet.server, quiet.documents, quiet.failures]
  rfl

/-- A document that is opened anew while the server knows it does not change what the server should
know. -/
theorem Reopens.follows (reopens : Reopens l d) (sound : Sound urls l) (sees : Sees gate l.state.store)
    (follows : Follows gate l) : Follows gate (refile (l.state.documents.insert d) l) := by
  intro running e here
  rcases sound.filed.mem_insert.mp here with rfl | ⟨old, -⟩
  · exact iff_of_true reopens.marked ((sees _ _).mp reopens.wanted)
  · exact follows running e old

theorem Deed.relies (follows : Follows gate l) (settled : ¬ deed.Unsettles gate l) :
    deed.operation.Relies gate l := by
  revert settled
  unfold Deed.Unsettles Operation.Relies
  cases deed.operation with
  | filesChanged changes => exact fun settled => ⟨follows, settled⟩
  | work =>
    intro settled
    show SettlesNext gate l
    unfold SettlesNext
    split
    · rename_i c rest commands
      cases c with
      | configurationChanged => trivial
      | status status => exact follows
      | probeFailed uri => exact ⟨follows, fun needed => settled ⟨uri, rest, commands, needed⟩⟩
    · exact follows
  | execute c active =>
    intro _
    cases c with
    | restart => trivial
    | _ => exact follows
  | attach | start | stop => exact fun _ => trivial
  | _ => exact fun _ => follows

/-- An operation that reacts to what it finds leaves marks that agree with the gate. -/
theorem Deed.Orderly.follows (apart : Set.InjOn Url.text urls) (sound : Sound urls l)
    (orderly : deed.Orderly urls (Sees gate) l) (relies : deed.operation.Relies gate l) :
    Refused (l.follow deed) ∨ Follows gate (l.follow deed) := by
  by_cases reopens : ∃ d, deed.operation = .opened d ∧ Reopens l d
  · obtain ⟨d, opens, reopens⟩ := reopens
    rw [opens] at relies
    refine .inr ((orderly.reopened apart sound opens reopens).follows ?_)
    exact reopens.follows sound orderly.store relies
  · exact (orderly.result apart sound fun d opens again => reopens ⟨d, opens, again⟩).follows relies
      (fun _ => id) orderly.store

theorem ensures_decline {rest : List ClientCommand} (sound : Sound urls l) (apart : Set.InjOn Url.text urls)
    (next : l.state.commands = .probeFailed uri :: rest) (follows : Follows gate l) :
    handleQueued.Ensures watch (amidst known) (fun _ l' => Follows gate l' ↔ ¬ Needed gate uri l) l := by
  rw [handleQueued, Program.ensures_bind, Program.ensures_modifyGet]
  have taken : Tacit known l (l.change watch (takeCommand l.state).2) := .of_idle (idle_takeCommand _)
  have first : (takeCommand l.state).1 = some (.probeFailed uri) := by rw [takeCommand, next]
  rw [first]
  dsimp only
  rw [Program.ensures_bind]
  refine (ensures_probeFailed (sound.quiet apart taken) uri).mono ?_
  rintro _ l' ⟨-, told, brings⟩
  exact (follows_decline (taken.follows follows) brings).trans (not_congr taken.needed_iff)

/-- Right after an operation the marks agree with the gate, as they did before, unless the operation
unsettles that. -/
theorem Deed.Orderly.follows_iff (apart : Set.InjOn Url.text urls) (sound : Sound urls l)
    (orderly : deed.Orderly urls (Sees gate) l) (follows : Follows gate l) :
    Refused (l.follow deed) ∨ (Follows gate (l.follow deed) ↔ ¬ deed.Unsettles gate l) := by
  by_cases unsettles : deed.Unsettles gate l
  -- There are two such operations, and what either does to the marks is known exactly.
  · refine .inr (iff_of_false ?_ (not_not_intro unsettles))
    revert unsettles
    unfold Deed.Unsettles
    split
    · rename_i changes isFiles
      intro revived
      have ensures : deed.operation.task.Ensures watch (amidst (Sees gate))
          (fun _ l' => Tacit (Sees gate) (judge .empty l) l') l := by
        rw [isFiles]
        exact ensures_watchedFilesChanged changes
      obtain ⟨l₁, forgot, quiet⟩ := orderly.ensures ensures
      rw [quiet.follows_iff, follows_forget follows forgot]
      exact not_not_intro revived
    · rename_i isWork
      rintro ⟨uri, rest, next, needed⟩
      have ensures : deed.operation.task.Ensures watch (amidst (Sees gate))
          (fun _ l' => Follows gate l' ↔ ¬ Needed gate uri l) l := by
        rw [isWork]
        show (handleQueued >>= fun _ => pure ()).Ensures _ _ _ l
        rw [Program.ensures_bind]
        exact ensures_decline sound apart next follows
      obtain ⟨l₁, declined, quiet⟩ := orderly.ensures ensures
      rw [quiet.follows_iff, declined]
      exact not_not_intro needed
    · exact False.elim
  · exact (orderly.follows apart sound (Deed.relies follows unsettles)).imp_right
      fun follows => iff_of_true follows unsettles

theorem Sound.follows_after {deeds : List (Deed σ)} (apart : Set.InjOn Url.text urls)
    (sound : Sound urls l) (orderly : l.Throughout (Deed.Orderly urls (Sees gate)) deeds)
    (settled : l.Throughout (fun deed l => ¬ deed.Unsettles gate l) deeds)
    (first : Refused l ∨ Follows gate l) :
    Sound urls (l.after deeds) ∧ (Refused (l.after deeds) ∨ Follows gate (l.after deeds)) := by
  refine sound.after (P := fun l => Refused l ∨ Follows gate l) apart orderly settled ?_ first
  intro l deed sound orderly settled holds
  rcases holds with refused | follows
  · exact .inl ((orderly.continues apart sound).refused refused)
  · exact orderly.follows apart sound (Deed.relies follows settled)

/-- While the store is for the gate what it is at the end, from the reaction to its last change on (or from
the start), and while no connection refuses anything: the server knows an open document just if the gate
says that it should, up to the first operation that forgets failed probes of documents which the server
should know otherwise, or notes a failed probe of one that it should know nevertheless. Such an operation
leaves them in disagreement, and no other does. -/
theorem marks_follow_gate (apart : Set.InjOn Url.text urls) (store : σ) (memento : Memento)
    (launch : Option Launch) (canLaunch : Launch → Except LaunchError Unit) (processId : Nat)
    (before since : List (Deed σ)) :
    let start : Life σ := ⟨.new store memento launch canLaunch processId, []⟩
    let l := start.after before
    let l' := l.after since
    let gate := l'.state.store
    start.Throughout (Deed.Orderly urls fun _ => True) before →
      l.Throughout (Deed.Orderly urls (Sees gate)) since → before = [] ∨ Refreshes l since →
        l.Throughout (fun deed l => ¬ deed.Unsettles gate l) since → ¬ Refused l' →
          (l'.state.client.server ≠ none → ∀ d ∈ l'.state.documents.opened,
            d.uri ∈ l'.state.documents.synced ↔ Wants gate l'.state.failures d) ∧
          ∀ deed, deed.Orderly urls (Sees gate) l' → ¬ Refused (l'.follow deed) →
            (Follows gate (l'.follow deed) ↔ ¬ deed.Unsettles gate l') := by
  intro start l l' gate orderly orderly' begins settled taken
  obtain ⟨sound, -⟩ := (sound_new store memento launch canLaunch processId).after
    (P := fun _ => True) (Q := fun _ _ => True) apart orderly (throughout_of_forall fun _ _ => trivial)
    (fun _ _ _ _ _ => id) trivial
  have holds : Sound urls l' ∧ (Refused l' ∨ Follows gate l') := by
    rcases begins with none | ⟨deed, rest, split, work, commands, next⟩
    · subst none
      exact sound.follows_after apart orderly' settled (.inr (.of_none rfl))
    -- The reaction to the last change leaves the marks in agreement, whatever they were before.
    · have here : l' = (l.follow deed).after rest := by
        show l.after since = _
        rw [split]
        rfl
      rw [here]
      rw [split] at orderly' settled
      have refreshed : deed.operation.Relies gate l := by
        rw [work]
        show SettlesNext gate l
        rw [SettlesNext, next]
        trivial
      exact (sound.follow apart orderly'.1).follows_after apart orderly'.2 settled.2
        (orderly'.1.follows apart sound refreshed)
  obtain ⟨sound', follows⟩ := holds
  have follows := follows.resolve_left taken
  exact ⟨follows, fun deed orderly taken' =>
    (orderly.follows_iff apart sound' follows).resolve_left taken'⟩

end Deeds

/-- The server declines a document soon after it was told of it. -/
def declined : Deed MemoryStore where
  operation := .opened script
  during _ s := s
  after := enqueue (.probeFailed scriptUrl)

theorem polite_declined : declined.Polite :=
  ⟨fun _ => .refl, fun _ => .of_still (.of_connections rfl) rfl rfl rfl⟩

/-- A document that the server declined is not told of again when files changed. -/
theorem marks_follow_gate_forgotten :
    let l := emptyLife.after [answering 0, declined, alone .work]
    let l' := l.follow (alone (.filesChanged []))
    Follows l.state.store l ∧ ¬ Follows l.state.store l' ∧ l'.state.client.server = some 0 ∧
      l'.state.documents = ⟨[script], []⟩ ∧ l'.state.commands = [] ∧
      Wants l'.state.store l'.state.failures script := by
  intro l l'
  have known {s : MemoryStore} (same : s = emptyStore) : Sees l.state.store s := by
    have gate : l.state.store = emptyStore := by decide +kernel
    rw [gate, same]
    exact fun _ _ => Iff.rfl
  have orderly {deed : Deed MemoryStore} {l₁ : Life MemoryStore} (polite : deed.Polite)
      (free : deed.operation = .attach ∨ deed.operation = .start → l₁.state.client.server = none)
      (named : ∀ d, deed.operation = .opened d → d.uri ∈ ({scriptUrl} : Set Url))
      (store : l₁.state.store = emptyStore) (inTime : deed.inTime l₁ = true)
      (stores : ∀ t ∈ (deed.operation.task.amid deed.during l₁.state).turns, t.found.store = emptyStore) :
      deed.Orderly {scriptUrl} (Sees l.state.store) l₁ :=
    polite.orderly free named (known store) inTime fun t member => known (stores t member)
  have named : ∀ d, declined.operation = .opened d → d.uri ∈ ({scriptUrl} : Set Url) := by
    rintro _ ⟨⟩
    rfl
  have kept : emptyLife.Throughout (Deed.Orderly {scriptUrl} (Sees l.state.store))
      [answering 0, declined, alone .work] :=
    ⟨orderly (polite_answering 0) (fun _ => rfl) nofun rfl (by decide +kernel) (by decide +kernel),
      orderly polite_declined nofun named (by decide +kernel) (by decide +kernel) (by decide +kernel),
      orderly (polite_alone _) nofun nofun (by decide +kernel) (by decide +kernel) (by decide +kernel),
      trivial⟩
  have settled : emptyLife.Throughout (fun deed l₁ => ¬ deed.Unsettles l.state.store l₁)
      [answering 0, declined, alone .work] := by
    refine ⟨id, id, ?_, trivial⟩
    rintro ⟨uri, rest, commands, needed⟩
    have next : (emptyLife.after [answering 0, declined]).state.commands = [.probeFailed scriptUrl] := by
      decide +kernel
    cases next.symm.trans commands
    exact absurd needed (by decide +kernel)
  have taken (l₁ : Life MemoryStore) (handed : (l₁.journal.all fun e => e matches .handed ..) = true) :
      ¬ Refused l₁ := by
    rintro ⟨i, member⟩
    cases List.all_eq_true.mp handed _ member
  obtain ⟨follows, next⟩ := marks_follow_gate (Set.injOn_singleton Url.text scriptUrl) emptyStore .inMemory
    none (fun _ => .error .noLaunch) 0 [] [answering 0, declined, alone .work] trivial kept (.inl rfl)
    settled (taken _ (by decide +kernel))
  have forgets : (alone (.filesChanged [])).Orderly {scriptUrl} (Sees l.state.store) l :=
    orderly (polite_alone _) nofun nofun (by decide +kernel) (by decide +kernel) (by decide +kernel)
  have revived : (alone (.filesChanged [])).Unsettles l.state.store l := by
    show Revived l.state.store l
    decide +kernel
  have broken := next _ forgets (taken _ (by decide +kernel))
  exact ⟨follows, fun again => broken.mp again revived, by decide +kernel, by decide +kernel,
    by decide +kernel, by decide +kernel⟩

end LinterClient.Session
