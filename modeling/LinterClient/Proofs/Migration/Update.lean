import LinterClient.Proofs.Migration.Changes
import LinterClient.Proofs.Migration.Effects
import LinterClient.Proofs.Store.Memory

/-!
What an update comes to if any of its writes can fail.

A failed write keeps none of the others back. The answer lists the failures and nothing else, and what
waited for the end of the update is done once, after the last attempt.
-/

namespace LinterClient.Session

open Migration (Change Failure Recorded Snapshot optOuts record)
open Program (Turn Course)

variable {σ : Type} [Store σ]

/-- Each change is attempted in its turn, the failures are answered, and what was kept is done at the
end. -/
structure Carried (r : Recorded) (s : Session σ) (run : Course (Session σ) Wait (List Failure))
    (last : Session σ) : Prop where
  attempts : Wrote r.resource r.changes s run.turns last
  answer : run.value = (r.changes.zip run.turns).filterMap fun p => p.1.failure? p.2.result
  complete : run.value = [] ↔ ∀ t ∈ run.turns, t.result = .ok ()
  continued (c : Continuation) : last.migration.inFlight = some (some c) →
    run.final = runContinuation c { last with migration := { last.migration with inFlight := some none } }
  idle : (∀ c, last.migration.inFlight ≠ some (some c)) → run.final = last
  once (c : Continuation) : run.final.migration.inFlight ≠ some (some c)
  captured : (∀ t ∈ run.turns, t.found.migration = t.left.migration) → last.migration = s.migration

/-- Each write that succeeds is there afterwards, and nothing else changes. If nobody else writes, that
is so to the end. -/
structure Landed (s : Session σ) (turns : List (Turn (Session σ) Wait)) (store : σ) : Prop where
  written (t : Turn (Session σ) Wait) (w : SettingWrite) : t ∈ turns → t.on = .write w →
    t.result = .ok () → w.value ≠ none ∧
      (Store.inspect t.after.store w.key w.resource).get w.tier = w.value
  untouched (t : Turn (Session σ) Wait) (w : SettingWrite) (key : String) (other : Option Url) (u : Tier) :
    t.on = .write w →
      (t.result = .ok () → ¬ w.Reaches (Store.workspace t.found.store) key other u) →
        (Store.inspect t.after.store key other).get u = (Store.inspect t.found.store key other).get u
  writtenLast (before later : List (Turn (Session σ) Wait)) (t : Turn (Session σ) Wait)
    (w : SettingWrite) : Quiet turns → turns = before ++ t :: later → t.on = .write w →
      t.result = .ok () →
      (∀ t' ∈ later, ∀ w', t'.on = .write w' → t'.result = .ok () →
        ¬ w'.Reaches (Store.workspace t.after.store) w.key w.resource w.tier) →
      (Store.inspect store w.key w.resource).get w.tier = w.value
  untouchedLast (key : String) (other : Option Url) (u : Tier) : Quiet turns →
    (∀ t ∈ turns, ∀ w, t.on = .write w → t.result = .ok () →
      ¬ w.Reaches (Store.workspace s.store) key other u) →
    (Store.inspect store key other).get u = (Store.inspect s.store key other).get u

omit [Store σ] in
theorem runPending_once (s : Session σ) (c : Continuation) :
    (runPending s).migration.inFlight ≠ some (some c) := by
  simp only [runPending]
  split
  · rename_i kept _
    cases kept <;> simp [runContinuation, enqueue]
  · rename_i idle
    exact idle c

omit [Store σ] in
theorem runPending_idle {s : Session σ} (idle : ∀ c, s.migration.inFlight ≠ some (some c)) :
    runPending s = s := by
  simp only [runPending]

theorem update_carried (r : Recorded) (others : Nat → Session σ → Session σ) (s : Session σ) :
    Carried r s ((update r).amid others s)
      ((writeChanges r.resource r.changes).amid others s).final := by
  rw [update_amid]
  have wrote := writeChanges_wrote r.resource r.changes others s
  have value := writeChanges_value r.resource r.changes others s
  exact {
    attempts := wrote
    answer := value
    complete := by
      rw [← wrote.failures_eq_nil_iff, ← value]
    continued := fun c kept => by simp only [runPending, kept]
    idle := runPending_idle
    once := runPending_once _
    captured := wrote.migration_kept }

variable {snapshot : Snapshot} {resource : Option Url} {s last : Session σ}
variable {turns : List (Turn (Session σ) Wait)}

/-- A turn is taken for a mapping, at a key that leads somewhere. -/
theorem Wrote.writes_mapping (wrote : Wrote resource (record snapshot resource).changes s turns last)
    {t : Turn (Session σ) Wait} (member : t ∈ turns) {w : SettingWrite} (on : t.on = .write w) :
    KeyPath.segments w.key ≠ [] ∧ ∃ m, w.value = some (.obj m) := by
  obtain ⟨c, listed, attempts⟩ := wrote.attempted member
  rw [Turn.Attempts, on, Wait.write.injEq] at attempts
  have change := Migration.changeOf_of_mem listed
  rw [attempts]
  exact ⟨change.segments_ne_nil, change.toWrite_value _⟩

omit [Store σ] in
theorem changes_clear (plain : ∀ t l, (t, l) ∈ optOuts snapshot → '.' ∉ l.toList) :
    (record snapshot resource).changes.Pairwise Clear := by
  refine (Migration.changes_pairwise snapshot resource).imp_of_mem fun {a b} first second before => ?_
  by_cases same : a.key = b.key
  · exact .inl (before.tier_ne same)
  · exact .inr ((Migration.changeOf_of_mem first).apart plain (Migration.changeOf_of_mem second) same)

theorem Wrote.landed [LawfulStore σ]
    (wrote : Wrote resource (record snapshot resource).changes s turns last) :
    Landed s turns last.store where
  written t w member on written := by
    obtain ⟨filled, m, given⟩ := wrote.writes_mapping member on
    rw [result_eq on] at written
    rw [after_store on, given]
    exact ⟨Option.some_ne_none _, LawfulStore.inspect_written _ _ _ written given filled⟩
  untouched t w key other u on away := inspect_after on key other u away
  writtenLast before later t w quiet same on written away := by
    subst same
    obtain ⟨filled, m, given⟩ := wrote.writes_mapping (by simp) on
    rw [given]
    exact wrote.inspect_landed quiet on written given filled away
  untouchedLast key other u quiet away := wrote.inspect_untouched quiet away

/-- Without dots in the names of languages no write disturbs an earlier one. -/
theorem Wrote.landed_to_end [LawfulStore σ]
    (wrote : Wrote resource (record snapshot resource).changes s turns last)
    (plain : ∀ t l, (t, l) ∈ optOuts snapshot → '.' ∉ l.toList) (quiet : Quiet turns)
    (t : Turn (Session σ) Wait) (member : t ∈ turns) (w : SettingWrite) (on : t.on = .write w)
    (written : t.result = .ok ()) :
    (Store.inspect last.store w.key w.resource).get w.tier = w.value := by
  obtain ⟨before, later, rfl⟩ := List.append_of_mem member
  refine wrote.landed.writtenLast before later t w quiet rfl on written fun t' member' w' on' _ => ?_
  exact wrote.not_reaches_of_later (changes_clear plain) on member' on' _

/-- An update attempts all of its changes, whatever others do and whichever writes fail, and so does a
further one. -/
theorem update_attempts_all (snapshot : Snapshot) (resource : Option Url)
    (others : Nat → Session σ → Session σ) (s : Session σ) :
    let r := record snapshot resource
    let run := (update r).amid others s
    r.changes.Pairwise Change.Before ∧ (∃ last, Carried r s run last) ∧
      (LawfulStore σ → Landed s run.turns run.final.store ∧
        ((∀ t l, (t, l) ∈ optOuts snapshot → '.' ∉ l.toList) → Quiet run.turns →
          ∀ t ∈ run.turns, ∀ w, t.on = .write w → t.result = .ok () →
            (Store.inspect run.final.store w.key w.resource).get w.tier = w.value)) ∧
      ∀ (others' : Nat → Session σ → Session σ) (s' : Session σ),
        ((update r).amid others' s').turns.map Turn.target? = run.turns.map Turn.target? := by
  intro r run
  have targets (others' : Nat → Session σ → Session σ) (s' : Session σ) :
      ((update r).amid others' s').turns.map Turn.target? = r.changes.map fun c => some (c.key, c.tier) :=
    (update_carried r others' s').attempts.targets
  refine ⟨Migration.changes_pairwise snapshot resource, ⟨_, update_carried r others s⟩, ?_, ?_⟩
  · intro lawful
    have wrote := writeChanges_wrote resource r.changes others s
    simp only [run, update_amid, runPending_store]
    exact ⟨wrote.landed, wrote.landed_to_end⟩
  · intro others' s'
    exact (targets others' s').trans (targets others s).symm

/-- The legacy flag is set, and fixing is off for one language. -/
def legacySettings : Json.Members :=
  [("eslint", .obj [("autoFixOnSave", .bool true),
    ("validate", .arr [.obj [("autoFix", .bool false), ("language", .str "html")]])])]

/-- The first write to the store fails. -/
def faultyStore : FaultyStore MemoryStore where
  store := ⟨⟨[], none⟩, legacySettings, [], []⟩
  attempts := 0
  fault := fun n _ => if n = 0 then some (.edit "settings.toml") else none

def faultySession : Session (FaultyStore MemoryStore) :=
  { new faultyStore .inMemory none (fun _ => .error .noLaunch) 0 with
    migration := ⟨[], 0, false, some (some (.named "refresh"))⟩ }

theorem update_attempts_all_faulty :
    let run := (update (record (Snapshot.take faultyStore none) none)).amid (fun _ s => s) faultySession
    Landed faultySession run.turns run.final.store ∧
      run.turns.map Turn.target? =
        [some (Settings.Keys.codeActionsOnSave, .global),
          some (Settings.Keys.languageCodeActions "html", .global)] ∧
      run.value = [⟨Settings.Keys.codeActionsOnSave, .global, .edit "settings.toml"⟩] ∧
      run.final.ran = ["refresh"] := by
  have result := update_attempts_all (Snapshot.take faultyStore none) none (fun _ s => s) faultySession
  exact ⟨(result.2.2.1 inferInstance).1, by decide +kernel, by decide +kernel, by decide +kernel⟩

end LinterClient.Session
