import LinterClient.Proofs.Session.Turns

/-!
What holds between a session and the calls in it, whatever they do.

Besides the order of turns: every message that is waited for has one call that waits, and the question
is asked only in a turn. What waits for the end of a migration is kept exactly as long as one writes.
-/

namespace LinterClient.Session

open Migration (Change Choice Recorded)

variable {σ ι : Type}

def Place.question? : Place → Option Nat
  | .holding _ (.asking m _) => some m
  | _ => none

def Place.message? : Place → Option Nat
  | .told m => some m
  | p => p.question?

/-- The messages that were not answered, and those whose answers were not read. -/
def messages (w : Window.State) : List Nat :=
  w.unanswered.map (·.1) ++ w.answers.map (·.1)

structure Messages (w : Window.State) (roles : ι → Role) : Prop where
  lt_next : ∀ m ∈ messages w, m < w.nextMessage
  nodup : (messages w).Nodup
  mem : ∀ i m, (roles i).place.message? = some m → m ∈ messages w
  unique : ∀ i j m, (roles i).place.message? = some m → (roles j).place.message? = some m → i = j
  asked : ∀ e ∈ w.unanswered, e.2.modal = true → ∃ i, (roles i).place.question? = some e.1

structure Ordered (s : Session σ) (roles : ι → Role) : Prop where
  turns : Turns s.migration roles
  inFlight : Held (InFlight s.migration) roles
  messages : Messages s.window roles

theorem Place.message?_of_question? {p : Place} {m : Nat} (asks : p.question? = some m) :
    p.message? = some m := by
  cases p with
  | holding t stage => exact asks
  | _ => exact absurd asks nofun

theorem Place.holds_of_question? {p : Place} {m : Nat} (asks : p.question? = some m) : p.Holds := by
  cases p with
  | holding => trivial
  | _ => cases asks

theorem Place.holding_of_question? {p : Place} {m : Nat} (asks : p.question? = some m) :
    ∃ t r, p = .holding t (.asking m r) := by
  unfold Place.question? at asks
  split at asks
  · rename_i t _ r
    cases asks
    exact ⟨t, r, rfl⟩
  · cases asks

section Updates

variable {w w' : Window.State} {roles roles' : ι → Role} {i : ι}

omit i roles roles' in
theorem mem_of_lookup {n : Nat} {answer : Option String} (found : w.answers.lookup n = some answer) :
    n ∈ w.answers.map (·.1) := by
  obtain ⟨before, after, split, -⟩ := List.lookup_eq_some_iff.mp found
  simp [split]

theorem Messages.open (messages : Messages w roles) (others : ∀ j, j = i ∨ roles' j = roles j)
    {m : Window.Message} (free : (roles i).place.message? = none)
    (waits : (roles' i).place.message? = some w.nextMessage)
    (asks : m.modal = true → (roles' i).place.question? = some w.nextMessage)
    (unanswered : w'.unanswered = w.unanswered ++ [(w.nextMessage, m)])
    (answers : w'.answers = w.answers) (next : w'.nextMessage = w.nextMessage + 1) :
    Messages w' roles' := by
  have silent : (roles i).place.question? = none := by
    cases asks : (roles i).place.question? with
    | none => rfl
    | some m => simpa [free] using Place.message?_of_question? asks
  obtain ⟨lt_next, nodup, mem, unique, asked⟩ := messages
  have new : w.nextMessage ∉ Session.messages w := fun member => Nat.lt_irrefl _ (lt_next _ member)
  have added : ∀ n, n ∈ Session.messages w' ↔ n ∈ Session.messages w ∨ n = w.nextMessage := by
    intro n
    simp only [Session.messages, unanswered, answers, List.map_append, List.mem_append, List.map_cons,
      List.map_nil, List.mem_singleton]
    grind
  constructor
  case lt_next => grind
  case nodup => grind [Session.messages]
  case mem => grind
  case unique => grind
  case asked => grind

theorem Messages.take (messages : Messages w roles) (others : ∀ j, j = i ∨ roles' j = roles j)
    {m : Nat} (waits : (roles i).place.message? = some m) (free : (roles' i).place.message? = none)
    (answered : m ∈ w.answers.map (·.1)) (unanswered : w'.unanswered = w.unanswered)
    (answers : w'.answers = w.answers.filter (·.1 ≠ m)) (next : w'.nextMessage = w.nextMessage) :
    Messages w' roles' := by
  obtain ⟨lt_next, nodup, mem, unique, asked⟩ := messages
  have read : m ∉ w.unanswered.map (·.1) :=
    fun unread => (List.nodup_append.mp nodup).2.2 m unread m answered rfl
  have removed : ∀ n, n ∈ Session.messages w' ↔ n ∈ Session.messages w ∧ n ≠ m := by
    intro n
    simp only [Session.messages, unanswered, answers, List.mem_append, List.mem_map, List.mem_filter]
    grind
  have asks : ∀ j m', (roles j).place.question? = some m' → (roles j).place.message? = some m' :=
    fun j m' => Place.message?_of_question?
  constructor
  case lt_next => grind
  case nodup =>
    refine List.Nodup.sublist ?_ nodup
    rw [Session.messages, unanswered, answers]
    exact (List.Sublist.refl _).append (List.filter_sublist.map _)
  case mem => grind
  case unique => grind
  case asked => grind

theorem Messages.keep (messages : Messages w roles)
    (waits : ∀ j, (roles' j).place.message? = (roles j).place.message?)
    (asks : ∀ j, (roles' j).place.question? = (roles j).place.question?)
    (unanswered : w'.unanswered = w.unanswered) (answers : w'.answers = w.answers)
    (next : w'.nextMessage = w.nextMessage) : Messages w' roles' := by
  obtain ⟨lt_next, nodup, mem, unique, asked⟩ := messages
  have same : Session.messages w' = Session.messages w := by
    rw [Session.messages, unanswered, answers]
    rfl
  constructor
  case lt_next => grind
  case nodup => grind
  case mem => grind
  case unique => grind
  case asked => grind

end Updates

section Acts

variable {s s' : Session σ} {roles roles' : ι → Role} {stage stage' : Stage} {r r' : Role} {i : ι}

theorem Ordered.aside (ordered : Ordered s roles) (aside : Aside s s') : Ordered s' roles := by
  obtain ⟨turns, inFlight, messages⟩ := ordered
  refine ⟨?_, ?_, ?_⟩
  · rwa [aside.migration]
  · rwa [aside.migration]
  · exact messages.keep (fun _ => rfl) (fun _ => rfl) aside.unanswered aside.answers aside.nextMessage

theorem runPending_window (s : Session σ) : (runPending s).window = s.window := by
  unfold runPending
  split
  · rename_i c _
    cases c <;> rfl
  · rfl

variable [Store σ]

theorem Messages.proceed (messages : Messages s.window roles)
    (others : ∀ j, j = i ∨ roles' j = roles j) {t : Nat} (held : (roles i).place = .holding t stage)
    (holds : (roles' i).place = .holding t stage') (act : stage.Act s stage' s') :
    Messages s'.window roles' := by
  have quiet (before : (Place.holding t stage).question? = none)
      (after : (Place.holding t stage').question? = none) (same : s'.window = s.window) :
      Messages s'.window roles' := by
    rw [same]
    refine messages.keep (eq_of_others _ others ?_) (eq_of_others _ others ?_) rfl rfl rfl
    · rw [held, holds]
      exact after.trans before.symm
    · rw [held, holds, before, after]
  cases act with
  | ask =>
    refine messages.open others (by rw [held]; rfl) (by rw [holds]; rfl) (fun _ => by rw [holds]; rfl)
      rfl rfl rfl
  | hear found =>
    refine messages.take others (by rw [held]; rfl) (by rw [holds]; rfl) ?_ rfl rfl rfl
    exact mem_of_lookup found
  | start starts =>
    obtain rfl | ⟨rfl, -⟩ := starts
    · exact quiet rfl rfl rfl
    · exact quiet rfl rfl rfl
  | finish => exact quiet rfl rfl (runPending_window s)
  | close => exact quiet rfl rfl (runPending_window s)
  | dismiss => exact quiet rfl rfl rfl
  | write => exact quiet rfl rfl rfl
  | silence => exact quiet rfl rfl rfl

theorem Messages.act (messages : Messages s.window roles) (others : ∀ j, j = i ∨ roles' j = roles j)
    (role : roles i = r) (role' : roles' i = r') (act : Act r s r' s') :
    Messages s'.window roles' := by
  cases act with
  | aside alike =>
    rw [eq_of_role others (by rw [role, role'])]
    exact messages.keep (fun _ => rfl) (fun _ => rfl) alike.unanswered alike.answers alike.nextMessage
  | tell free =>
    exact messages.open others (by rw [role]; rfl) (by rw [role']; rfl) (by simp [free]) rfl rfl rfl
  | attend found =>
    exact messages.take others (by rw [role]; rfl) (by rw [role']; rfl) (mem_of_lookup found) rfl rfl rfl
  | queue =>
    exact messages.keep (eq_of_others _ others (by rw [role, role']; rfl))
      (eq_of_others _ others (by rw [role, role']; rfl)) rfl rfl rfl
  | proceed act => exact messages.proceed others (by rw [role]) (by rw [role']) act
  | @leave t stage b new s ended =>
    have silent : (roles i).place.message? = none := by
      rw [role]
      obtain rfl | rfl := ended <;> rfl
    have free : (roles i).place.question? = none := by
      rw [role]
      obtain rfl | rfl := ended <;> rfl
    exact messages.keep (eq_of_others _ others (by rw [silent, role']; rfl))
      (eq_of_others _ others (by rw [free, role']; rfl)) rfl rfl rfl

theorem Messages.rest {on : Wait} (messages : Messages s.window roles)
    (others : ∀ j, j = i ∨ roles' j = roles j) (role : roles i = r) (role' : roles' i = r')
    (rest : Rest r s on r') : Messages s.window roles' := by
  refine messages.keep (eq_of_others _ others ?_) (eq_of_others _ others ?_) rfl rfl rfl
  · rw [role, role']
    cases rest with
    | pause rest => cases rest <;> rfl
    | _ => rfl
  · rw [role, role']
    cases rest with
    | pause rest => cases rest <;> rfl
    | _ => rfl

omit [Store σ] in
theorem Messages.wake {on : Wait} (messages : Messages s.window roles)
    (others : ∀ j, j = i ∨ roles' j = roles j) (role : roles i = r) (role' : roles' i = r')
    (wake : Wake r on s r') : Messages s.window roles' := by
  refine messages.keep (eq_of_others _ others ?_) (eq_of_others _ others ?_) rfl rfl rfl
  · rw [role, role']
    cases wake <;> rfl
  · rw [role, role']
    cases wake <;> rfl

variable [DecidableEq ι]

theorem Ordered.act (ordered : Ordered s roles) (act : Act (roles i) s r' s') :
    Ordered s' (Function.update roles i r') := by
  have others := update_others roles i r'
  have self : Function.update roles i r' i = r' := Function.update_self i r' roles
  obtain ⟨turns, inFlight, messages⟩ := ordered
  exact ⟨turns.act others rfl self act, inFlight_rule.keeps_act inFlight turns others rfl self act,
    messages.act others rfl self act⟩

theorem Ordered.rest {on : Wait} (ordered : Ordered s roles) (rest : Rest (roles i) s on r') :
    Ordered s (Function.update roles i r') := by
  have others := update_others roles i r'
  have self : Function.update roles i r' i = r' := Function.update_self i r' roles
  obtain ⟨turns, inFlight, messages⟩ := ordered
  exact ⟨turns.rest others rfl self rest, inFlight_rule.keeps_rest inFlight turns others rfl self rest,
    messages.rest others rfl self rest⟩

theorem Ordered.wake {on : Wait} (ordered : Ordered s roles) (wake : Wake (roles i) on s r') :
    Ordered s (Function.update roles i r') := by
  have others := update_others roles i r'
  have self : Function.update roles i r' i = r' := Function.update_self i r' roles
  obtain ⟨turns, inFlight, messages⟩ := ordered
  exact ⟨turns.wake others rfl self wake, inFlight_rule.keeps_wake inFlight turns others rfl self wake,
    messages.wake others rfl self wake⟩

end Acts

section Moves

variable {s : Session σ} {roles : ι → Role}

theorem Messages.answer (messages : Messages s.window roles) (m : Nat) (a : Option String) :
    Messages (answerMessage m a s).window roles := by
  unfold answerMessage
  dsimp only
  split
  · rename_i waits
    obtain ⟨lt_next, nodup, mem, unique, asked⟩ := messages
    have unread : m ∈ s.window.unanswered.map (·.1) := by
      rw [List.any_eq_true] at waits
      obtain ⟨e, member, same⟩ := waits
      exact List.mem_map.mpr ⟨e, member, of_decide_eq_true same⟩
    have left : ∀ n, n ∈ (s.window.unanswered.filter (·.1 ≠ m)).map (·.1) ↔
        n ∈ s.window.unanswered.map (·.1) ∧ n ≠ m := by
      intro n
      simp only [List.mem_map, List.mem_filter, decide_eq_true_eq]
      constructor
      · rintro ⟨e, ⟨member, other⟩, rfl⟩
        exact ⟨⟨e, member, rfl⟩, other⟩
      · rintro ⟨⟨e, member, rfl⟩, other⟩
        exact ⟨e, ⟨member, other⟩, rfl⟩
    simp only [Session.messages, List.mem_append, List.nodup_append] at lt_next nodup mem
    -- The message only moves from those without an answer to those with one.
    constructor
    case lt_next =>
      simp only [Session.messages, List.map_append, List.mem_append, left]
      grind
    case nodup =>
      simp only [Session.messages, List.map_append, List.nodup_append, List.mem_append, left]
      refine ⟨nodup.1.sublist (List.filter_sublist.map _), ?_, ?_⟩
      · grind
      · grind
    case mem =>
      simp only [Session.messages, List.map_append, List.mem_append, left]
      grind
    case unique => exact unique
    case asked => exact fun e member => asked e (List.mem_filter.mp member).1
  · exact messages

theorem answerMessage_migration (m : Nat) (a : Option String) (s : Session σ) :
    (answerMessage m a s).migration = s.migration := by
  unfold answerMessage
  dsimp only
  split <;> rfl

theorem answerMessage_store (m : Nat) (a : Option String) (s : Session σ) :
    (answerMessage m a s).store = s.store := by
  unfold answerMessage
  dsimp only
  split <;> rfl

theorem configurationChanged_store (s : Session σ) : (configurationChanged s).store = s.store := by
  unfold configurationChanged defer
  cases s.migration.inFlight <;> rfl

theorem Ordered.answer (ordered : Ordered s roles) (m : Nat) (a : Option String) :
    Ordered (answerMessage m a s) roles := by
  obtain ⟨turns, inFlight, messages⟩ := ordered
  refine ⟨?_, ?_, messages.answer m a⟩
  · rwa [answerMessage_migration]
  · rwa [answerMessage_migration]

/-- Others say that the configuration changed only while no call is at the end of a migration. -/
theorem Ordered.changed (ordered : Ordered s roles)
    (notEnding : ∀ i t, (roles i).place ≠ .holding t .ending) :
    Ordered (configurationChanged s) roles := by
  obtain ⟨turns, inFlight, messages⟩ := ordered
  unfold configurationChanged defer
  cases kept : s.migration.inFlight with
  | none => exact ⟨turns, inFlight, messages⟩
  | some kept' =>
    refine ⟨⟨turns.lt_next, turns.nodup, turns.mem_iff, turns.unique, turns.first⟩, ⟨?_, ?_⟩, messages⟩
    · intro i t stage held
      have before : s.migration.inFlight = stage.inFlight := inFlight.held i t stage held
      rw [kept] at before
      cases stage with
      | writing => rfl
      | attempting => rfl
      | ending => exact absurd held (notEnding i t)
      | _ => cases before
    · intro nobody
      have idle : s.migration.inFlight = none := inFlight.free nobody
      rw [idle] at kept
      cases kept

end Moves

end LinterClient.Session
