import LinterClient.Proofs.Migration.Update

/-!
What becomes of edits that others make after a migration was recorded.

A section of a language is merged with what it holds, but the whole mapping that was recorded is laid
over it: members that the migration does not care about come back as they were. The editor's setting is
not merged at all, so that an opt-out made meanwhile is lost.
-/

namespace LinterClient.Session

open Settings
open Json (Members)
open Migration (Change Snapshot ChangeOf OptedOut record)
open Program (Turn)

variable {σ : Type} [Store σ]

/-- The code actions that a key holds in a tier. What is no mapping holds none. -/
def heldActions (s : Session σ) (key : String) (resource : Option Url) (t : Tier) : Members :=
  (CodeActions.ofValue ((Store.inspect s.store key resource).get t)).members

section Recorded

variable {s₀ : Session σ} {resource : Option Url} {c : Change}
variable (listed : c ∈ (record (Snapshot.take s₀.store resource) resource).changes)

include listed

/-- What was recorded is laid over what is read, and differs from it in the linter's action. -/
theorem section_members {l : String} (language : c.language = some l) (read : Session σ) :
    c.key = Keys.languageCodeActions l ∧
      ∃ stored, (c.toWrite resource (Store.inspect read.store c.key resource)).value = some (.obj stored) ∧
        ∀ id, Members.get? stored id =
          if id = Keys.linterFixAll then some (.bool false)
          else (Members.get? (heldActions s₀ c.key resource c.tier) id).or
            (Members.get? (heldActions read c.key resource c.tier) id) := by
  cases Migration.changeOf_of_mem listed with
  | turnOn => cases language
  | turnOff t l m _ mapping =>
    cases language
    obtain ⟨stored, overlaid, found⟩ := Migration.overlay_obj
      ((Store.inspect read.store (Keys.languageCodeActions l) resource).get t)
      (Members.insert Keys.linterFixAll (.bool false) m)
    have recorded : heldActions s₀ (Keys.languageCodeActions l) resource t = m :=
      Migration.mapping?_eq_some mapping
    refine ⟨rfl, stored, overlaid, fun id => ?_⟩
    rw [found, recorded, Members.get?_insert]
    split
    · rw [Option.some_or]
    · rfl

/-- The linter's action is turned on in a mapping that said nothing about it when it was recorded. -/
theorem setting_members (setting : c.key = Keys.codeActionsOnSave) (current : Scoped Json) :
    ∃ m, (c.toWrite resource current).value =
        some (.obj (Members.insert Keys.linterFixAll (.bool true) m)) ∧
      Migration.mapping? ((Store.inspect s₀.store c.key resource).get c.tier) = some m ∧
        Members.get? m Keys.linterFixAll = none := by
  cases Migration.changeOf_of_mem listed with
  | turnOn t m _ mapping unset => exact ⟨m, rfl, mapping, unset⟩
  | turnOff t l => exact absurd setting.symm (Migration.languageCodeActions_ne l)

end Recorded

/-- What was recorded is laid over what is read, so it has to be what is held already. -/
theorem members_patched_iff {stored recorded read held : Members} {flag : String} {v : Json}
    (overlaid : ∀ id, Members.get? stored id =
      if id = flag then some v else (Members.get? recorded id).or (Members.get? read id)) :
    (∀ id, Members.get? stored id = Members.get? (Members.insert flag v held) id) ↔
      ∀ id, id ≠ flag →
        (Members.get? recorded id).or (Members.get? read id) = Members.get? held id := by
  constructor
  · intro same id different
    have here := same id
    rwa [overlaid, Members.get?_insert, if_neg different, if_neg different] at here
  · intro same id
    rw [overlaid, Members.get?_insert]
    split
    · rfl
    · exact same id ‹_›

theorem or_eq_right_iff {α : Type} (a b : Option α) : a.or b = b ↔ ∀ v, a = some v → b = some v := by
  cases a with
  | none => simp
  | some v => simp [eq_comm]

/-- The write to a section changes the linter's action only, exactly if what was recorded and what is
read of the other actions is what is held by then. -/
theorem section_write_exact [LawfulStore σ] (s₀ : Session σ) (resource : Option Url) :
    let r := record (Snapshot.take s₀.store resource) resource
    (∀ (others : Nat → Session σ → Session σ) (s : Session σ),
      List.Forall₂ (fun c t => t.Attempts resource c) r.changes ((update r).amid others s).turns) ∧
    ∀ c ∈ r.changes, ∀ l, c.language = some l →
      ∀ t : Turn (Session σ) Wait, t.Attempts resource c →
        let recorded := heldActions s₀ c.key resource c.tier
        let read := heldActions t.left c.key resource c.tier
        let held := heldActions t.found c.key resource c.tier
        let patched := Members.insert Keys.linterFixAll (.bool false) held
        ∃ stored, t.on = .write ⟨Keys.languageCodeActions l, some (.obj stored), c.tier, resource⟩ ∧
          (t.result = .ok () →
            (Store.inspect t.after.store c.key resource).get c.tier = some (.obj stored)) ∧
          ((∀ id, Members.get? stored id = Members.get? patched id) ↔
            ∀ id, id ≠ Keys.linterFixAll →
              (Members.get? recorded id).or (Members.get? read id) = Members.get? held id) ∧
          (read = held →
            ((∀ id, Members.get? stored id = Members.get? patched id) ↔
              ∀ id, id ≠ Keys.linterFixAll →
                ∀ v, Members.get? recorded id = some v → Members.get? held id = some v)) := by
  intro r
  refine ⟨fun others s => (update_carried r others s).attempts.attempts, ?_⟩
  intro c listed l language t attempts recorded read held patched
  obtain ⟨key, stored, given, overlaid⟩ := section_members listed language t.left
  have exact : (∀ id, Members.get? stored id = Members.get? patched id) ↔
      ∀ id, id ≠ Keys.linterFixAll →
        (Members.get? recorded id).or (Members.get? read id) = Members.get? held id :=
    members_patched_iff overlaid
  refine ⟨stored, ?_, fun written => ?_, exact, fun unchanged => ?_⟩
  · rw [attempts, ← given, ← key]
    rfl
  · rw [result_eq attempts] at written
    rw [after_store attempts]
    exact LawfulStore.inspect_written _ _ _ written given
      (Migration.changeOf_of_mem listed).segments_ne_nil
  · rw [exact, unchanged]
    simp only [or_eq_right_iff]

/-- The legacy flag is set, fixing is off for one language, and the other settings are as given. -/
def editedSession (rest : Members) : Session MemoryStore :=
  .new ⟨⟨[], none⟩, rest ++ legacySettings, [], []⟩ .inMemory none (fun _ => .error .noLaunch) 0

theorem section_write_reverts_edit :
    let organize (on : Bool) : Members :=
      [("[html]", .obj [("editor", .obj [("codeActionsOnSave", .obj [("source.organizeImports", .bool on)])])])]
    let run := (update (record (Snapshot.take (editedSession (organize true)).store none) none)).amid
      (fun _ s => s) (editedSession (organize false))
    ∃ t ∈ run.turns, ∃ stored,
      (Store.inspect t.after.store (Keys.languageCodeActions "html") none).get .global =
        some (.obj stored) ∧
      ¬ ∀ id, Members.get? stored id = Members.get?
        (Members.insert Keys.linterFixAll (.bool false)
          (heldActions t.found (Keys.languageCodeActions "html") none .global)) id := by
  intro organize run
  let c : Change := ⟨Keys.languageCodeActions "html", .global,
    some (.obj [(Keys.linterFixAll, .bool false), ("source.organizeImports", .bool true)]), some "html"⟩
  have listed : c ∈ (record (Snapshot.take (editedSession (organize true)).store none) none).changes := by
    decide +kernel
  obtain ⟨t, member, attempts, written, same, differs⟩ : ∃ t ∈ run.turns,
      t.on = .write (c.toWrite none (Store.inspect t.left.store c.key none)) ∧
      t.result = .ok () ∧
      heldActions t.left c.key none c.tier = heldActions t.found c.key none c.tier ∧
      Members.get? (heldActions t.found c.key none c.tier) "source.organizeImports" ≠ some (.bool true) := by
    decide +kernel
  obtain ⟨stored, _, landed, _, exact⟩ :=
    (section_write_exact (editedSession (organize true)) none).2 c listed "html" rfl t attempts
  refine ⟨t, member, stored, landed written, fun kept => differs ?_⟩
  exact (exact same).mp kept "source.organizeImports" (by decide) (.bool true) (by decide +kernel)

/-- A tier that was not opted out when the migration was recorded stays opted out only if it cannot be
written. -/
theorem codeActions_write_exact [LawfulStore σ] (s₀ : Session σ) (resource : Option Url) :
    let r := record (Snapshot.take s₀.store resource) resource
    (∀ (others : Nat → Session σ → Session σ) (s : Session σ),
      List.Forall₂ (fun c t => t.Attempts resource c) r.changes ((update r).amid others s).turns) ∧
    ∀ c ∈ r.changes, c.key = Keys.codeActionsOnSave →
      ¬ OptedOut ((Store.inspect s₀.store c.key resource).get c.tier) ∧
      ∀ t : Turn (Session σ) Wait, t.Attempts resource c →
        OptedOut ((Store.inspect t.found.store c.key resource).get c.tier) →
          (OptedOut ((Store.inspect t.after.store c.key resource).get c.tier) ↔ t.result ≠ .ok ()) := by
  intro r
  refine ⟨fun others s => (update_carried r others s).attempts.attempts, ?_⟩
  intro c listed setting
  refine ⟨?_, fun t attempts held => ?_⟩
  · obtain ⟨m, _, mapping, unset⟩ := setting_members listed setting .empty
    rw [Migration.optedOut_of_mapping? mapping, unset]
    exact (Option.some_ne_none _).symm
  · obtain ⟨m, given, _, _⟩ :=
      setting_members listed setting (Store.inspect t.left.store c.key resource)
    have filled := (Migration.changeOf_of_mem listed).segments_ne_nil
    rw [result_eq attempts, after_store attempts]
    cases result : (Store.write t.found.store
        (c.toWrite resource (Store.inspect t.left.store c.key resource))).1 with
    | ok =>
      have stored := LawfulStore.inspect_written _ _ _ result given filled
      have on : ¬ OptedOut (some (.obj (Members.insert Keys.linterFixAll (.bool true) m))) := by
        rw [Migration.optedOut_obj, Members.get?_insert_self]
        simp
      exact ⟨fun off => absurd (stored ▸ off) on, fun refused => absurd rfl refused⟩
    | error e =>
      rw [LawfulStore.inspect_refused _ _ _ _ _ result]
      exact ⟨fun _ => by simp, fun _ => held⟩

theorem codeActions_write_reverts_optOut :
    let out : Members :=
      [("editor", .obj [("codeActionsOnSave", .obj [(Keys.linterFixAll, .bool false)])])]
    let run := (update (record (Snapshot.take (editedSession []).store none) none)).amid
      (fun _ s => s) (editedSession out)
    ∃ t ∈ run.turns,
      OptedOut ((Store.inspect t.found.store Keys.codeActionsOnSave none).get .global) ∧
        ¬ OptedOut ((Store.inspect t.after.store Keys.codeActionsOnSave none).get .global) := by
  intro out run
  let c : Change := ⟨Keys.codeActionsOnSave, .global, some (.obj [(Keys.linterFixAll, .bool true)]), none⟩
  have listed : c ∈ (record (Snapshot.take (editedSession []).store none) none).changes := by
    decide +kernel
  obtain ⟨t, member, attempts, written, held⟩ : ∃ t ∈ run.turns,
      t.on = .write (c.toWrite none (Store.inspect t.left.store c.key none)) ∧ t.result = .ok () ∧
      OptedOut ((Store.inspect t.found.store Keys.codeActionsOnSave none).get .global) := by
    decide +kernel
  have exact := ((codeActions_write_exact (editedSession []) none).2 c listed rfl).2 t attempts held
  exact ⟨t, member, held, fun kept => exact.mp kept written⟩

end LinterClient.Session
