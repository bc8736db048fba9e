import Mathlib.Data.List.Forall2
import LinterClient.Proofs.Task.Interference
import LinterClient.Session.Migrating

/-!
The writes of an update, one by one.

Others may change the state before each write. Whatever they do, every change is attempted once and in
order, and the update itself does nothing else until the last attempt is over.
-/

namespace LinterClient

open Migration (Change Failure Recorded)

variable {σ : Type} [Store σ]

namespace Migration

/-- What is noted of a change whose write ended so. -/
def Change.failure? (c : Change) : Except StoreError Unit → Option Failure
  | .ok () => none
  | .error e => some ⟨c.key, c.tier, e⟩

theorem Change.failure?_eq_none_iff (c : Change) (result : Except StoreError Unit) :
    c.failure? result = none ↔ result = .ok () := by
  cases result <;> simp [Change.failure?]

end Migration

namespace Program.Turn

/-- How the write ended that a turn was taken for. -/
def result (t : Turn (Session σ) Wait) : Except StoreError Unit :=
  match t.on with
  | .write w => (Store.write t.found.store w).1
  | _ => .ok ()

/-- The state right after that write. -/
def after (t : Turn (Session σ) Wait) : Session σ :=
  match t.on with
  | .write w => { t.found with store := (Store.write t.found.store w).2 }
  | _ => t.found

/-- The key and the tier that it was taken to write. -/
def target? (t : Turn (Session σ) Wait) : Option (String × Tier) :=
  match t.on with
  | .write w => some (w.key, w.tier)
  | _ => none

/-- A turn taken to write a change, merged with what was held when the task began to wait. -/
def Attempts (resource : Option Url) (c : Change) (t : Turn (Session σ) Wait) : Prop :=
  t.on = .write (c.toWrite resource (Store.inspect t.left.store c.key resource))

end Program.Turn

namespace Session

open Program (Turn Course)

/-- The writes of a list of changes lead from one state to another: the first wait leaves the first
state, each further one what the write before it made, and the last write makes the last state. -/
structure Wrote (resource : Option Url) (changes : List Change) (s : Session σ)
    (turns : List (Turn (Session σ) Wait)) (last : Session σ) : Prop where
  attempts : List.Forall₂ (fun c t => t.Attempts resource c) changes turns
  states : s :: turns.map (·.after) = turns.map (·.left) ++ [last]

section Wrote

variable {resource : Option Url} {changes : List Change} {s last : Session σ}
variable {turns : List (Turn (Session σ) Wait)}

theorem Wrote.of_nil (wrote : Wrote resource changes s [] last) : changes = [] ∧ last = s := by
  have states := wrote.states
  simp only [List.map_nil, List.nil_append, List.cons.injEq, and_true] at states
  exact ⟨List.forall₂_nil_right_iff.mp wrote.attempts, states.symm⟩

theorem Wrote.of_cons {t : Turn (Session σ) Wait} (wrote : Wrote resource changes s (t :: turns) last) :
    ∃ c rest, changes = c :: rest ∧ t.Attempts resource c ∧ t.left = s ∧
      Wrote resource rest t.after turns last := by
  obtain ⟨c, rest, attempts, later, rfl⟩ := List.forall₂_cons_right_iff.mp wrote.attempts
  have states := wrote.states
  simp only [List.map_cons, List.cons_append, List.cons.injEq] at states
  exact ⟨c, rest, rfl, attempts, states.1.symm, later, states.2⟩

theorem Wrote.of_append {before after : List (Turn (Session σ) Wait)}
    (wrote : Wrote resource changes s (before ++ after) last) :
    ∃ first rest middle, changes = first ++ rest ∧ Wrote resource first s before middle ∧
      Wrote resource rest middle after last := by
  induction before generalizing changes s with
  | nil => exact ⟨[], changes, s, rfl, ⟨.nil, rfl⟩, wrote⟩
  | cons t before ih =>
    obtain ⟨c, rest, rfl, attempts, left, later⟩ := wrote.of_cons
    obtain ⟨first, rest, middle, rfl, begun, ended⟩ := ih later
    refine ⟨c :: first, rest, middle, rfl, ⟨.cons attempts begun.attempts, ?_⟩, ended⟩
    simp only [List.map_cons, List.cons_append, left, begun.states]

theorem Wrote.of_cons_changes {c : Change} {rest : List Change}
    (wrote : Wrote resource (c :: rest) s turns last) :
    ∃ t later, turns = t :: later ∧ t.Attempts resource c ∧ t.left = s ∧
      Wrote resource rest t.after later last := by
  obtain ⟨t, later, _, _, rfl⟩ := List.forall₂_cons_left_iff.mp wrote.attempts
  obtain ⟨_, _, same, attempts, left, ended⟩ := wrote.of_cons
  cases same
  exact ⟨t, later, rfl, attempts, left, ended⟩

theorem Wrote.of_append_changes {first rest : List Change}
    (wrote : Wrote resource (first ++ rest) s turns last) :
    ∃ before after middle, turns = before ++ after ∧ Wrote resource first s before middle ∧
      Wrote resource rest middle after last := by
  have lengths := List.length_append ▸ wrote.attempts.length_eq
  have split := List.take_append_drop first.length turns
  rw [← split] at wrote
  obtain ⟨first', rest', middle, same, begun, ended⟩ := wrote.of_append
  have begins : first' = first := by
    have length := begun.attempts.length_eq
    rw [List.length_take_of_le (by omega)] at length
    exact (List.append_inj same length.symm).1.symm
  subst begins
  rw [List.append_cancel_left same]
  exact ⟨_, _, middle, split.symm, begun, ended⟩

theorem Wrote.attempted (wrote : Wrote resource changes s turns last) {t : Turn (Session σ) Wait}
    (member : t ∈ turns) : ∃ c ∈ changes, t.Attempts resource c := by
  obtain ⟨before, later, rfl⟩ := List.append_of_mem member
  obtain ⟨first, rest, _, rfl, _, ended⟩ := wrote.of_append
  obtain ⟨c, rest, rfl, attempts, _⟩ := ended.of_cons
  exact ⟨c, by simp, attempts⟩

theorem Wrote.targets (wrote : Wrote resource changes s turns last) :
    turns.map (·.target?) = changes.map fun c => some (c.key, c.tier) := by
  induction turns generalizing changes s with
  | nil => rw [wrote.of_nil.1, List.map_nil, List.map_nil]
  | cons t turns ih =>
    obtain ⟨c, rest, rfl, attempts, _, later⟩ := wrote.of_cons
    have target : t.target? = some (c.key, c.tier) := by
      rw [Turn.target?, attempts]
      rfl
    rw [List.map_cons, List.map_cons, target, ih later]

theorem Wrote.failures_eq_nil_iff (wrote : Wrote resource changes s turns last) :
    ((changes.zip turns).filterMap fun p => p.1.failure? p.2.result) = [] ↔
      ∀ t ∈ turns, t.result = .ok () := by
  have all : (changes.zip turns).map Prod.snd = turns :=
    List.map_snd_zip (Nat.le_of_eq wrote.attempts.length_eq.symm)
  conv_rhs => rw [← all]
  simp only [List.filterMap_eq_nil_iff, Change.failure?_eq_none_iff, List.forall_mem_map]

/-- What the others leave alone is as it was, as the writes change the store only. -/
theorem Wrote.migration_kept (wrote : Wrote resource changes s turns last)
    (kept : ∀ t ∈ turns, t.found.migration = t.left.migration) : last.migration = s.migration := by
  induction turns generalizing changes s with
  | nil => rw [wrote.of_nil.2]
  | cons t turns ih =>
    obtain ⟨c, rest, rfl, attempts, left, later⟩ := wrote.of_cons
    have after : t.after.migration = t.found.migration := by
      simp only [Turn.after, show t.on = .write _ from attempts]
    rw [ih later fun t member => kept t (by simp [member]), after, kept t (by simp), left]

end Wrote

theorem writeChanges_cons_amid (resource : Option Url) (c : Change) (rest : List Change)
    (others : Nat → Session σ → Session σ) (s : Session σ) :
    (writeChanges resource (c :: rest)).amid others s =
      let t : Turn (Session σ) Wait :=
        ⟨.write (c.toWrite resource (Store.inspect s.store c.key resource)), s, others 0 s⟩
      let more := (writeChanges resource rest).amid (fun n => others (n + 1)) t.after
      ⟨t :: more.turns, (c.failure? t.result).toList ++ more.value, more.final⟩ := by
  simp only [writeChanges, writeSetting, Program.amid_bind, Program.amid_get, Program.amid_await,
    Program.amid_modifyGet, List.nil_append, List.length_nil, Nat.add_zero, List.length_cons,
    List.append_nil, Nat.zero_add, List.cons_append]
  simp only [Turn.after, Turn.result]
  cases (Store.write (others 0 s).store _).1 <;> simp [Change.failure?]

theorem writeChanges_wrote (resource : Option Url) (changes : List Change)
    (others : Nat → Session σ → Session σ) (s : Session σ) :
    let course := (writeChanges resource changes).amid others s
    Wrote resource changes s course.turns course.final := by
  induction changes generalizing others s with
  | nil => exact ⟨.nil, rfl⟩
  | cons c rest ih =>
    rw [writeChanges_cons_amid]
    intro course
    have more := ih (fun n => others (n + 1))
      (Turn.after ⟨.write (c.toWrite resource (Store.inspect s.store c.key resource)), s, others 0 s⟩)
    exact ⟨.cons rfl more.attempts, by simpa [course] using more.states⟩

theorem writeChanges_value (resource : Option Url) (changes : List Change)
    (others : Nat → Session σ → Session σ) (s : Session σ) :
    let course := (writeChanges resource changes).amid others s
    course.value = (changes.zip course.turns).filterMap fun p => p.1.failure? p.2.result := by
  induction changes generalizing others s with
  | nil => rfl
  | cons c rest ih =>
    rw [writeChanges_cons_amid]
    intro course
    have more := ih (fun n => others (n + 1))
      (Turn.after ⟨.write (c.toWrite resource (Store.inspect s.store c.key resource)), s, others 0 s⟩)
    simp only [course, List.zip_cons_cons, List.filterMap_cons, more]
    split <;> rename_i failure <;> simp [failure]

theorem update_amid (r : Recorded) (others : Nat → Session σ → Session σ) (s : Session σ) :
    (update r).amid others s =
      let course := (writeChanges r.resource r.changes).amid others s
      ⟨course.turns, course.value, runPending course.final⟩ := by
  simp [update]

omit [Store σ] in
theorem runPending_store (s : Session σ) : (runPending s).store = s.store := by
  simp only [runPending]
  split
  · rename_i c _
    cases c <;> rfl
  · rfl

/-- Writing one change after the other, without a task. -/
theorem writeChanges_alone (resource : Option Url) (changes : List Change)
    {others : Nat → Session σ → Session σ} (keeps : ∀ n s, (others n s).store = s.store)
    (s : Session σ) (failures : List Failure) :
    let course := (writeChanges resource changes).amid others s
    changes.foldl (Migration.writeChange resource) (s.store, failures) =
      (course.final.store, failures ++ course.value) := by
  induction changes generalizing others s failures with
  | nil => simp [writeChanges]
  | cons c rest ih =>
    rw [writeChanges_cons_amid]
    intro course
    have more := ih (fun n => keeps (n + 1))
      (Turn.after ⟨.write (c.toWrite resource (Store.inspect s.store c.key resource)), s, others 0 s⟩)
    simp only [Turn.after, keeps] at more
    rw [List.foldl_cons, Migration.writeChange]
    cases result : (Store.write s.store (c.toWrite resource (Store.inspect s.store c.key resource))).1 with
    | ok => simpa [course, Turn.after, Turn.result, keeps, result, Change.failure?] using more failures
    | error e =>
      have noted := more (failures ++ [⟨c.key, c.tier, e⟩])
      rw [List.append_assoc] at noted
      simpa [course, Turn.after, Turn.result, keeps, result, Change.failure?] using noted

/-- A task that nobody disturbs writes what the plain update writes. -/
theorem update_alone (r : Recorded) {others : Nat → Session σ → Session σ}
    (keeps : ∀ n s, (others n s).store = s.store) (s : Session σ) :
    let run := (update r).amid others s
    Migration.update r s.store = (run.final.store, run.value) := by
  rw [update_amid]
  simpa [Migration.update, runPending_store] using writeChanges_alone r.resource r.changes keeps s []

end Session

end LinterClient
