import LinterClient.Proofs.Session.Runs

/-!
One question at a time, and none after the user declined.
-/

namespace LinterClient.Session

open Migration (Change Choice Recorded)

variable {σ ι : Type} {s s' : Session σ} {roles : ι → Role} {n t : Nat} {stage stage' : Stage}

/-- A modal message belongs to the call that has the turn. -/
theorem Ordered.openModals_same (ordered : Ordered s roles) {e e' : Nat × Window.Message}
    (member : e ∈ openModals s) (member' : e' ∈ openModals s) : e.1 = e'.1 := by
  obtain ⟨waits, modal⟩ := List.mem_filter.mp member
  obtain ⟨waits', modal'⟩ := List.mem_filter.mp member'
  obtain ⟨i, asks⟩ := ordered.messages.asked e waits modal
  obtain ⟨j, asks'⟩ := ordered.messages.asked e' waits' modal'
  obtain rfl := ordered.turns.alone (Place.holds_of_question? asks) (Place.holds_of_question? asks')
  exact Option.some_inj.mp (asks.symm.trans asks')

theorem Ordered.openModals_length (ordered : Ordered s roles) : (openModals s).length ≤ 1 := by
  have nodup : ((openModals s).map (·.1)).Nodup :=
    ((List.nodup_append.mp ordered.messages.nodup).1).sublist (List.filter_sublist.map _)
  match modals : openModals s with
  | [] => simp
  | [_] => simp
  | e :: e' :: rest =>
    have same : e.1 = e'.1 := ordered.openModals_same (by simp [modals]) (by simp [modals])
    rw [modals] at nodup
    simp [same] at nodup

/-- A call that is about to do what an answer of some kind asks for. -/
def Deciding (answers : Option Choice → Prop) (s : Session σ) : Place → Prop
  | .holding _ (.asking m _) =>
    ∃ a, s.window.answers.lookup m = some a ∧ answers (a.bind Choice.ofTitle?)
  | .holding _ (.answered choice _) => answers choice
  | .holding _ .silencing => answers (some .never)
  | _ => False

/-- The user gave an answer that ends the questions, and sees none, after a number of them. What the
answer leads to is said of the store, and of whether the session was dismissed. -/
structure Silenced (answers : Option Choice → Prop) (off : σ → Bool → Prop) (n : Nat) (s : Session σ)
    (roles : ι → Role) : Prop where
  noted : off s.store s.migration.dismissed ∨ ∃ i, Deciding answers s (roles i).place
  closed : openModals s = []
  asked : s.asked = n

variable {answers : Option Choice → Prop} {off : σ → Bool → Prop}

theorem Deciding.holds {p : Place} (deciding : Deciding answers s p) : p.Holds := by
  cases p with
  | holding => trivial
  | _ => exact absurd deciding id

theorem Deciding.keep {p : Place} (deciding : Deciding answers s p)
    (found : ∀ m a, p.message? = some m → s.window.answers.lookup m = some a →
      s'.window.answers.lookup m = some a) : Deciding answers s' p := by
  cases p with
  | holding t stage =>
    cases stage with
    | asking m r =>
      obtain ⟨a, was, decides⟩ := deciding
      exact ⟨a, found m a rfl was, decides⟩
    | answered => exact deciding
    | silencing => exact deciding
    | _ => exact absurd deciding id
  | _ => exact absurd deciding id

theorem Silenced.keep {roles' : ι → Role} {i : ι} (silenced : Silenced answers off n s roles)
    (others : ∀ j, j = i ∨ roles' j = roles j) (mine : ¬ Deciding answers s (roles i).place)
    (found : ∀ j m a, j ≠ i → (roles j).place.message? = some m →
      s.window.answers.lookup m = some a → s'.window.answers.lookup m = some a)
    (store : s'.store = s.store) (dismissed : s'.migration.dismissed = s.migration.dismissed)
    (unanswered : openModals s' = openModals s) (asked : s'.asked = s.asked) :
    Silenced answers off n s' roles' := by
  refine ⟨?_, unanswered.trans silenced.closed, asked.trans silenced.asked⟩
  rw [store, dismissed]
  refine silenced.noted.imp_right fun ⟨j, deciding⟩ => ⟨j, ?_⟩
  rcases others j with rfl | same
  · exact absurd deciding mine
  · rw [same]
    refine deciding.keep fun m a waits => found j m a ?_ waits
    rintro rfl
    exact mine deciding

theorem Silenced.aside (silenced : Silenced answers off n s roles) (aside : Aside s s')
    (same : off s.store s.migration.dismissed → off s'.store s.migration.dismissed) :
    Silenced answers off n s' roles := by
  refine ⟨?_, ?_, aside.asked.trans silenced.asked⟩
  · rw [aside.migration]
    refine silenced.noted.imp same fun ⟨j, deciding⟩ => ⟨j, deciding.keep fun m a _ => ?_⟩
    rw [aside.answers]
    exact id
  · rw [openModals, aside.unanswered]
    exact silenced.closed

section Acts

variable [Store σ]

/-- Answers that end the questions, and what they lead to: while that holds nothing is asked, and
migrations leave it as it is. -/
structure Closing (answers : Option Choice → Prop) (off : σ → Bool → Prop) : Prop where
  forbids {store : σ} (uri : Url) : off store false → promptsEnabled store uri = false
  dismisses {store : σ} {dismissed : Bool} {choice : Option Choice} :
    Declines choice → off store dismissed ∨ answers choice → off store true
  migrates : ¬ answers (some .migrate)
  writes {store : σ} {dismissed : Bool} {w : SettingWrite} :
    KeyPath.Apart (KeyPath.segments w.key) (KeyPath.segments promptsKey) →
      off store dismissed → off (Store.write store w).2 dismissed

theorem closing_declines :
    Closing (σ := σ) Declines (fun _ dismissed => dismissed = true) where
  forbids _ isOff := nomatch isOff
  dismisses _ _ := rfl
  migrates declines := declines.1 rfl
  writes _ isOff := isOff

/-- In a turn nothing is asked after such an answer, if the attempt to turn the question off does what it
should. -/
theorem Closing.act (closing : Closing answers off) (act : stage.Act s stage' s')
    (silence : stage = .silencing → off s.store s.migration.dismissed ∨ answers (some .never) →
      off (Store.write s.store silencingWrite).2 s.migration.dismissed)
    (noted : off s.store s.migration.dismissed ∨ Deciding answers s (.holding t stage)) :
    (off s'.store s'.migration.dismissed ∨ Deciding answers s' (.holding t stage')) ∧
      s'.window.unanswered = s.window.unanswered ∧ s'.window.shown = s.window.shown := by
  cases act with
  | @ask s r uri allowed recorded enabled =>
    rcases noted with isOff | deciding
    · rw [allowed] at isOff
      rw [closing.forbids uri isOff] at enabled
      cases enabled
    · exact absurd deciding id
  | hear found =>
    refine ⟨noted.imp_right fun ⟨a, found', decides⟩ => ?_, rfl, rfl⟩
    rw [found, Option.some_inj] at found'
    rwa [← found'] at decides
  | dismiss declines => exact ⟨.inl (closing.dismisses declines noted), rfl, rfl⟩
  | start starts =>
    refine ⟨noted.imp_right fun deciding => ?_, rfl, rfl⟩
    rcases starts with rfl | ⟨rfl, -⟩
    · exact closing.migrates deciding
    · exact deciding
  | finish =>
    obtain ⟨kept, same⟩ := runPending_migration s
    rw [runPending_window, runPending_store, same]
    exact ⟨noted.imp_right (absurd · id), rfl, rfl⟩
  | close =>
    obtain ⟨kept, same⟩ := runPending_migration s
    rw [endUpdate, same]
    dsimp only
    rw [runPending_window, runPending_store]
    exact ⟨noted.imp_right (absurd · id), rfl, rfl⟩
  | write apart =>
    exact ⟨.inl (closing.writes apart (noted.resolve_right id)), rfl, rfl⟩
  | silence => exact ⟨.inl (silence rfl noted), rfl, rfl⟩

variable [DecidableEq ι] {i : ι} {r : Role}

theorem Silenced.act (closing : Closing answers off) (ordered : Ordered s roles)
    (silenced : Silenced answers off n s roles) (act : Act (roles i) s r s')
    (silence : ∀ t, (roles i).place = .holding t .silencing →
      off s.store s.migration.dismissed ∨ answers (some .never) →
        off (Store.write s.store silencingWrite).2 s.migration.dismissed) :
    Silenced answers off n s' (Function.update roles i r) := by
  have others := update_others roles i r
  have self : Function.update roles i r i = r := Function.update_self i r roles
  generalize role : roles i = r₀ at act silence
  generalize Function.update roles i r = roles' at *
  cases act with
  | aside alike =>
    rw [eq_of_role others (by rw [role, self])]
    exact silenced.aside alike.toAside (by rw [alike.store]; exact id)
  | @tell m b s free =>
    refine silenced.keep others (by simp [role, Deciding]) (fun _ _ _ _ _ => id) rfl rfl ?_ ?_
    · simp [openModals, openMessage, free]
    · have other : m ≠ question := by
        rintro rfl
        cases free
      simp [Session.asked, openMessage, List.count_append, other]
  | @attend m b s answer found =>
    refine silenced.keep others (by simp [role, Deciding]) (fun j m' a other waits => ?_) rfl rfl rfl rfl
    have differs : m' ≠ m := fun same =>
      other (ordered.messages.unique j i m (same ▸ waits) (by rw [role]; rfl))
    have kept : (s.window.answers.filter (·.1 ≠ m)).lookup m' = s.window.answers.lookup m' := by
      rw [lookup_filter_ne, if_neg differs]
    exact kept.trans
  | queue =>
    exact silenced.keep others (by simp [role, Deciding]) (fun _ _ _ _ _ => id) rfl rfl rfl rfl
  | @proceed t stage stage' b s s' act =>
    have mine : off s.store s.migration.dismissed ∨ Deciding answers s (.holding t stage) := by
      rcases silenced.noted with isOff | ⟨j, deciding⟩
      · exact .inl isOff
      · have held : (roles i).place = .holding t stage := congrArg Role.place role
        obtain rfl := ordered.turns.alone (i := i) (by rw [held]; trivial) deciding.holds
        rw [held] at deciding
        exact .inr deciding
    obtain ⟨noted, unanswered, shown⟩ :=
      closing.act act (fun silencing => silence t (congrArg _ silencing)) mine
    refine ⟨noted.imp_right fun deciding => ⟨i, by rwa [self]⟩, ?_, ?_⟩
    · rw [openModals, unanswered]
      exact silenced.closed
    · rw [Session.asked, shown]
      exact silenced.asked
  | leave ended =>
    refine silenced.keep others ?_ (fun _ _ _ _ _ => id) rfl rfl rfl rfl
    rcases ended with rfl | rfl
    · simp [role, Deciding]
    · simp [role, Deciding]

omit [Store σ] in
theorem Silenced.wake {on : Wait} (silenced : Silenced answers off n s roles)
    (wake : Wake (roles i) on s r) : Silenced answers off n s (Function.update roles i r) := by
  generalize role : roles i = r₀ at wake
  cases wake with
  | turn =>
    exact silenced.keep (update_others roles i _) (by simp [role, Deciding]) (fun _ _ _ _ _ => id)
      rfl rfl rfl rfl
  | same => rwa [← role, Function.update_eq_self]

theorem Silenced.rest {on : Wait} (silenced : Silenced answers off n s roles)
    (rest : Rest (roles i) s on r) : Silenced answers off n s (Function.update roles i r) := by
  generalize role : roles i = r₀ at rest
  cases rest with
  | pause rest =>
    cases rest with
    | question => rwa [← role, Function.update_eq_self]
    | silencing =>
      refine ⟨silenced.noted.imp_right fun ⟨j, deciding⟩ => ⟨j, ?_⟩, silenced.closed, silenced.asked⟩
      by_cases mine : j = i
      · subst mine
        rw [role] at deciding
        rwa [Function.update_self]
      · rwa [Function.update_of_ne mine]
    | attempt =>
      exact silenced.keep (update_others roles i _) (by simp [role, Deciding])
        (fun _ _ _ _ _ => id) rfl rfl rfl rfl
  | _ => rwa [← role, Function.update_eq_self]

end Acts

theorem answerMessage_shown (m : Nat) (a : Option String) (s : Session σ) :
    (answerMessage m a s).window.shown = s.window.shown := by
  unfold answerMessage
  dsimp only
  split <;> rfl

theorem Silenced.answer (silenced : Silenced answers off n s roles) (m : Nat) (a : Option String) :
    Silenced answers off n (answerMessage m a s) roles := by
  obtain ⟨noted, closed, asked⟩ := silenced
  refine ⟨?_, ?_, ?_⟩
  · rw [answerMessage_migration, answerMessage_store]
    refine noted.imp_right fun ⟨j, deciding⟩ => ⟨j, deciding.keep fun m' a' _ found => ?_⟩
    unfold answerMessage
    dsimp only
    split
    · rw [List.lookup_append, found]
      rfl
    · exact found
  · unfold answerMessage
    dsimp only
    split
    · have fewer : (s.window.unanswered.filter (·.1 ≠ m)).filter (·.2.modal) |>.Sublist (openModals s) :=
        List.filter_sublist.filter _
      rw [closed] at fewer
      exact List.sublist_nil.mp fewer
    · exact closed
  · rw [Session.asked, answerMessage_shown]
    exact asked

theorem Silenced.changed (silenced : Silenced answers off n s roles) :
    Silenced answers off n (configurationChanged s) roles := by
  obtain ⟨noted, closed, asked⟩ := silenced
  unfold configurationChanged defer
  cases s.migration.inFlight with
  | none => exact ⟨noted, closed, asked⟩
  | some kept => exact ⟨noted, closed, asked⟩

theorem silenced_stable [Store σ] [DecidableEq ι] (n : Nat) :
    Stable (fun _ => True)
      (Silenced Declines (fun _ dismissed => dismissed = true) n : Session σ → (ι → Role) → Prop) where
  wake _ := Silenced.wake
  act ordered silenced act := silenced.act closing_declines ordered act fun _ _ noted =>
    noted.resolve_right fun declines => declines.2 rfl
  rest _ := Silenced.rest
  answer m a _ silenced := silenced.answer m a
  changed := Silenced.changed
  aside _ aside silenced := silenced.aside aside id

theorem Ordered.decided (ordered : Ordered s roles) {e : Nat × Window.Message} {a : Option String}
    (open_ : e ∈ openModals s) (decides : answers (a.bind Choice.ofTitle?)) :
    Silenced answers off s.asked (answerMessage e.1 a s) roles := by
  obtain ⟨waits, modal⟩ := List.mem_filter.mp open_
  obtain ⟨i, asks⟩ := ordered.messages.asked e waits modal
  obtain ⟨t, r, place⟩ := Place.holding_of_question? asks
  have unread : s.window.unanswered.any (·.1 = e.1) = true :=
    List.any_eq_true.mpr ⟨e, waits, decide_eq_true rfl⟩
  have new : s.window.answers.lookup e.1 = none := by
    rw [List.lookup_eq_none_iff]
    intro entry member
    have other := (List.nodup_append.mp ordered.messages.nodup).2.2 e.1 (List.mem_map_of_mem waits)
      entry.1 (List.mem_map_of_mem member)
    simpa using other
  rw [answerMessage, if_pos unread]
  refine ⟨.inr ⟨i, ?_⟩, ?_, rfl⟩
  · rw [place]
    refine ⟨a, ?_, decides⟩
    rw [List.lookup_append, new]
    simp
  · refine List.eq_nil_iff_forall_not_mem.mpr fun e' member => ?_
    obtain ⟨left, modal'⟩ := List.mem_filter.mp member
    obtain ⟨waits', other⟩ := List.mem_filter.mp left
    have same := ordered.openModals_same open_ (List.mem_filter.mpr ⟨waits', modal'⟩)
    simp [same] at other

theorem Ordered.silenced (ordered : Ordered s roles) {e : Nat × Window.Message} {a : Option String}
    (open_ : e ∈ openModals s) (declines : Declines (a.bind Choice.ofTitle?)) :
    Silenced Declines (fun _ dismissed => dismissed = true) s.asked (answerMessage e.1 a s) roles :=
  ordered.decided open_ declines

section Runs

variable [Store σ] [DecidableEq ι]

/-- In every run at most one question is open, and once the user declined one, no other is asked. -/
theorem modal_questions (calls : ι → Call) (store : σ) (memento : Memento) (launch : Option Launch)
    (canLaunch : Launch → Except LaunchError Unit) (processId : Nat) (moves : List (Move σ ι)) :
    let crew := (withCalls (.new store memento launch canLaunch processId) calls).after moves
    (openModals crew.state).length ≤ 1 ∧
      ∀ e ∈ openModals crew.state, ∀ (answer : Option String) (later : List (Move σ ι)),
        Declines (answer.bind Choice.ofTitle?) →
          let final := crew.after (.answer e.1 answer :: later)
          openModals final.state = [] ∧ final.state.asked = crew.state.asked := by
  intro crew
  obtain ⟨roles, keeping⟩ :=
    (Keeping.start calls store memento launch canLaunch processId).after moves
  refine ⟨keeping.ordered.openModals_length, fun e open_ answer later declines => ?_⟩
  have silenced := keeping.ordered.silenced open_ declines
  have answered : Keeping calls (crew.move (.answer e.1 answer)) roles :=
    ⟨keeping.stands, keeping.begins, keeping.ordered.answer e.1 answer⟩
  obtain ⟨roles', -, final⟩ :=
    (silenced_stable crew.state.asked).after answered silenced later fun _ _ _ => trivial
  exact ⟨final.closed, final.asked⟩

end Runs

/-- The other call was queued already when the user closed the question. -/
theorem modal_questions_dismissed :
    let crew := twoCalls.after [.go true, .go true, .go false]
    let final := crew.after [.answer 0 none, .go true, .go false]
    (0, question) ∈ openModals crew.state ∧ crew.state.migration.turns = [0, 1] ∧
      openModals final.state = [] ∧ final.state.asked = crew.state.asked ∧
      (final.tasks true).answer?.isSome ∧ (final.tasks false).answer?.isSome := by
  intro crew final
  have shown : (0, question) ∈ openModals crew.state := by decide +kernel
  have quiet := (modal_questions (fun _ => .settings pageUrl) legacyStore .inMemory none
    (fun _ => .error .noLaunch) 0 [.go true, .go true, .go false]).2 (0, question) shown none
    [.go true, .go false] ⟨nofun, nofun⟩
  exact ⟨shown, by decide +kernel, quiet.1, quiet.2, by decide +kernel, by decide +kernel⟩

end LinterClient.Session
