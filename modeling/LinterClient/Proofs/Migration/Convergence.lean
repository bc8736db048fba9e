import LinterClient.Proofs.Migration.Update

/-!
An update that nobody disturbs leaves nothing to migrate.

Turning the linter's action on in a tier makes that tier fix everything, but so did the legacy flag it is
turned on for. Hence the next migration finds the same languages opted out, and all of them settled.
-/

namespace LinterClient

open Settings
open Json (Members)
open Migration (Snapshot ChangeOf ownFixAll optOuts migrateOptOut optedOutLanguages record)

namespace Migration.Snapshot

/-- What is read once all changes for another snapshot were carried out. -/
structure Follows (before after : Snapshot) : Prop where
  autoFix (t : Tier) : after.autoFix.get t = before.autoFix.get t
  validate (t : Tier) : after.validate.get t = before.validate.get t
  codeActions (t : Tier) :
    after.codeActions.get t = (ownFixAll before t).1.stored (before.codeActions.get t)
  optedOut (t : Tier) (l : String) :
    (t, l) ∈ optOuts before → (migrateOptOut ⟨(after.language l).get t, false⟩).changed = false

variable {before after : Snapshot}

theorem Follows.ownFixAll_settled (follows : Follows before after) (t : Tier) :
    (ownFixAll after t).1.changed = false ∧ (ownFixAll after t).2 = (ownFixAll before t).2 := by
  rw [ownFixAll, follows.autoFix t, follows.codeActions t]
  exact migrateAutoFix_stored _ _

theorem Follows.mem_optOuts_iff (follows : Follows before after) (t : Tier) (l : String) :
    (t, l) ∈ optOuts after ↔ (t, l) ∈ optOuts before := by
  have fixing : fixes after t = fixes before t := by
    simp only [fixes, (follows.ownFixAll_settled _).2]
  rw [mem_optOuts, mem_optOuts, fixing, follows.validate t]

theorem Follows.changes_eq_nil (follows : Follows before after) (resource : Option Url) :
    (record after resource).changes = [] := by
  refine List.eq_nil_iff_forall_not_mem.mpr fun c member => ?_
  obtain ⟨t, changed, _⟩ | ⟨t, l, out, changed, _⟩ := (mem_changes_iff c).mp member
  · rw [(follows.ownFixAll_settled t).1] at changed
    cases changed
  · rw [follows.optedOut t l ((follows.mem_optOuts_iff t l).mp out)] at changed
    cases changed

end Migration.Snapshot

namespace Session

open Program (Turn)

section Lawful

variable {σ : Type} [Store σ] {s last : Session σ} {resource : Option Url}
variable {turns : List (Turn (Session σ) Wait)}

section Settled

variable [LawfulStore σ]
variable (wrote : Wrote resource (record (Snapshot.take s.store resource) resource).changes s turns last)
variable (quiet : Quiet turns) (written : ∀ t ∈ turns, t.result = .ok ())
variable (plain : ∀ t l, (t, l) ∈ optOuts (Snapshot.take s.store resource) → '.' ∉ l.toList)

include wrote quiet written plain

theorem Wrote.codeActions_stored (t : Tier) :
    (Store.inspect last.store Keys.codeActionsOnSave resource).get t =
      (ownFixAll (Snapshot.take s.store resource) t).1.stored
        ((Store.inspect s.store Keys.codeActionsOnSave resource).get t) := by
  have cases := Migration.migrateAutoFix_cases ((Snapshot.take s.store resource).autoFix.get t)
    ((Snapshot.take s.store resource).codeActions.get t)
  rw [← ownFixAll] at cases
  obtain same | ⟨m, _, _, _, made⟩ := cases
  · rw [Migration.Element.stored, same]
    refine wrote.inspect_unwritten quiet fun c member tier => ?_
    obtain ⟨u, changed, rfl⟩ | ⟨u, l, out, _, rfl⟩ := (Migration.mem_changes_iff c).mp member
    · cases tier
      rw [same] at changed
      cases changed
    · exact (Migration.apart_languageCodeActions (plain u l out)).symm
  · have listed : ⟨Keys.codeActionsOnSave, t, some (.obj (Members.insert Keys.linterFixAll (.bool true) m)),
        none⟩ ∈ (record (Snapshot.take s.store resource) resource).changes :=
      (Migration.mem_changes_iff _).mpr (.inl ⟨t, by rw [made], by rw [made]⟩)
    rw [Migration.Element.stored, made]
    exact wrote.inspect_change quiet written (changes_clear plain) listed rfl
      (Migration.changeOf_of_mem listed).segments_ne_nil

theorem Wrote.optOut_settled {t : Tier} {l : String}
    (out : (t, l) ∈ optOuts (Snapshot.take s.store resource)) :
    (migrateOptOut
      ⟨(Store.inspect last.store (Keys.languageCodeActions l) resource).get t, false⟩).changed = false := by
  obtain same | ⟨m, mapping, on, made⟩ :=
    Migration.migrateOptOut_cases (((Snapshot.take s.store resource).language l).get t)
  · have kept : (Store.inspect last.store (Keys.languageCodeActions l) resource).get t =
        ((Snapshot.take s.store resource).language l).get t := by
      refine wrote.inspect_unwritten quiet fun c member tier => ?_
      obtain ⟨u, _, rfl⟩ | ⟨u, l', out', changed, rfl⟩ := (Migration.mem_changes_iff c).mp member
      · exact Migration.apart_languageCodeActions (plain t l out)
      · refine Migration.apart_languages (plain u l' out') (plain t l out) fun equal => ?_
        cases tier
        rw [equal, same] at changed
        cases changed
    rw [kept, same]
  · have listed : ⟨Keys.languageCodeActions l, t,
        some (.obj (Members.insert Keys.linterFixAll (.bool false) m)), some l⟩ ∈
          (record (Snapshot.take s.store resource) resource).changes :=
      (Migration.mem_changes_iff _).mpr (.inr ⟨t, l, out, by rw [made], by rw [made]⟩)
    -- The section is merged with what it holds, which leaves the linter's action off.
    obtain ⟨n, overlaid, found⟩ := Migration.overlay_obj
      (((Snapshot.take s.store resource).language l).get t)
      (Members.insert Keys.linterFixAll (.bool false) m)
    have holds : (Store.inspect last.store (Keys.languageCodeActions l) resource).get t = some (.obj n) :=
      wrote.inspect_change quiet written (changes_clear plain) listed overlaid
        (Migration.changeOf_of_mem listed).segments_ne_nil
    have off : Members.get? n Keys.linterFixAll = some (.bool false) := by
      rw [found, Members.get?_insert_self, Option.some_or]
    rw [holds, Migration.migrateOptOut_off false off]

theorem Wrote.follows :
    (Snapshot.take s.store resource).Follows (Snapshot.take last.store resource) where
  autoFix t := by
    refine wrote.inspect_unwritten quiet fun c member _ => ?_
    exact (Migration.changeOf_of_mem member).apart_linter ["autoFixOnSave"]
  validate t := by
    refine wrote.inspect_unwritten quiet fun c member _ => ?_
    exact (Migration.changeOf_of_mem member).apart_linter ["validate"]
  codeActions := wrote.codeActions_stored quiet written plain
  optedOut _ _ out := wrote.optOut_settled quiet written plain out

end Settled

end Lawful

section Memory

variable {workspace : Workspace} {s last : Session MemoryStore} {resource : Option Url}
variable {turns : List (Turn (Session MemoryStore) Wait)}

theorem Wrote.accepted {changes : List Migration.Change} (wrote : Wrote resource changes s turns last)
    (quiet : Quiet turns) (accepts : ∀ c ∈ changes, s.store.Accepts resource c.tier) :
    ∀ t ∈ turns, t.result = .ok () := by
  induction turns generalizing changes s with
  | nil => simp
  | cons t turns ih =>
    obtain ⟨c, rest, rfl, attempts, left, later⟩ := wrote.of_cons
    have found : t.found.store = s.store := (quiet t (by simp)).trans (congrArg Session.store left)
    intro t' member
    rcases List.mem_cons.mp member with rfl | member
    · rw [result_eq attempts, MemoryStore.write_ok_iff, found]
      exact accepts c (by simp)
    · refine ih later (fun t' member => quiet t' (by simp [member])) (fun d listed => ?_) t' member
      rw [after_store attempts, MemoryStore.accepts_write, found]
      exact accepts d (by simp [listed])

/-- A tier is only changed for what it holds. -/
theorem accepts_change (reachable : MemoryStore.Reachable workspace s.store) {c : Migration.Change}
    (member : c ∈ (record (Snapshot.take s.store resource) resource).changes) :
    s.store.Accepts resource c.tier := by
  cases Migration.changeOf_of_mem member with
  | turnOn t m legacy mapping unset =>
    cases flag : (Snapshot.take s.store resource).autoFix.get t with
    | none =>
      rw [flag] at legacy
      cases legacy
    | some v => exact reachable.accepts flag
  | turnOff t l m out mapping on =>
    have listed := ((Migration.mem_optOuts _ t l).mp out).2
    cases entries : (Snapshot.take s.store resource).validate.get t with
    | none =>
      rw [entries] at listed
      cases listed
    | some v => exact reachable.accepts entries

/-- An update that nobody disturbs writes all of its changes, and leaves nothing to migrate. -/
theorem update_converges (reachable : MemoryStore.Reachable workspace s.store)
    (plain : ∀ t, ∀ l ∈ optedOutLanguages ((Store.inspect s.store Keys.validate resource).get t),
      '.' ∉ l.toList)
    (others : Nat → Session MemoryStore → Session MemoryStore) :
    let run := (update (record (Snapshot.take s.store resource) resource)).amid others s
    Quiet run.turns →
      (∀ t ∈ run.turns, t.result = .ok ()) ∧ run.value = [] ∧
        (record (Snapshot.take run.final.store resource) resource).needsUpdate = false ∧
        (record (Snapshot.take run.final.store resource) resource).changes = [] := by
  intro run quiet
  have wrote := writeChanges_wrote resource
    (record (Snapshot.take s.store resource) resource).changes others s
  have value := writeChanges_value resource
    (record (Snapshot.take s.store resource) resource).changes others s
  simp only [run, update_amid] at quiet ⊢
  have written := wrote.accepted quiet fun c member => accepts_change reachable member
  have languages (t : Tier) (l : String) (out : (t, l) ∈ optOuts (Snapshot.take s.store resource)) :
      '.' ∉ l.toList :=
    plain t l ((Migration.mem_optOuts _ t l).mp out).2
  have settled := (wrote.follows quiet written languages).changes_eq_nil resource
  rw [runPending_store]
  refine ⟨written, ?_, (Migration.Recorded.changes_eq_nil_iff _).mp settled, settled⟩
  exact value.trans (wrote.failures_eq_nil_iff.mpr written)

/-- The legacy flag is set, and fixing is off for one language. -/
def legacyStore : MemoryStore :=
  let flag : SettingWrite := ⟨Keys.autoFixOnSave, some (.bool true), .global, none⟩
  let entries : SettingWrite := ⟨Keys.validate,
    some (.arr [.obj [("autoFix", .bool false), ("language", .str "html")]]), .global, none⟩
  (Store.write (Store.write (MemoryStore.new ⟨[], none⟩) flag).2 entries).2

def legacySession : Session MemoryStore :=
  .new legacyStore .inMemory none (fun _ => .error .noLaunch) 0

theorem update_converges_for_html :
    (record (Snapshot.take legacyStore none) none).changes.length = 2 ∧
      let run := (update (record (Snapshot.take legacyStore none) none)).amid (fun _ s => s) legacySession
      run.value = [] ∧ (record (Snapshot.take run.final.store none) none).changes = [] := by
  have reachable : MemoryStore.Reachable ⟨[], none⟩ legacySession.store := .write _ (.write _ .new)
  have plain : ∀ t, ∀ l ∈ optedOutLanguages ((Store.inspect legacySession.store Keys.validate none).get t),
      '.' ∉ l.toList := by
    intro t
    cases t <;> decide
  have result := update_converges reachable plain (fun _ s => s) (quiet_amid (fun _ _ => rfl) _ _)
  exact ⟨by decide, result.2.1, result.2.2.2⟩

end Memory

end Session

end LinterClient
