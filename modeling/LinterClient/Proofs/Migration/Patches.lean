import LinterClient.Proofs.Migration.Update

/-!
An update that nobody disturbs changes one member of each mapping that it writes, and nothing else.

The writes share parents with each other and with other settings, in up to three tiers. What is written
is known from the changes that were recorded, and what is spared from the paths that they keep away
from.
-/

namespace LinterClient

open Settings
open Json (Members)
open Migration (ChangeOf OptedOut Snapshot mapping? optOuts optedOutLanguages record)

namespace Migration

variable {snapshot : Snapshot} {c : Change}

/-- Whether the linter's action is turned on or off at a key. -/
inductive Sets : String → Bool → Prop where
  | editor : Sets Keys.codeActionsOnSave true
  | language (l : String) : Sets (Keys.languageCodeActions l) false

/-- The settings of the linter that a migration reads. -/
def linterKeys : List String :=
  [Keys.autoFixOnSave, Keys.validate, Keys.workingDirectories]

theorem segments_linterKeys {key : String} (member : key ∈ linterKeys) :
    ∃ path, KeyPath.segments key = "eslint" :: path := by
  have all : ∀ key ∈ linterKeys, (KeyPath.segments key).head? = some "eslint" := by decide
  exact List.head?_eq_some_iff.mp (all key member)

theorem ChangeOf.apart_linterKeys (change : ChangeOf snapshot c) {key : String} (member : key ∈ linterKeys) :
    KeyPath.Apart (KeyPath.segments c.key) (KeyPath.segments key) := by
  obtain ⟨path, segments⟩ := segments_linterKeys member
  rw [segments]
  exact change.apart_linter path

/-- What a snapshot says of the key of a change. -/
def Change.recorded (snapshot : Snapshot) (c : Change) : Scoped Json :=
  match c.language with
  | none => snapshot.codeActions
  | some l => snapshot.language l

theorem ChangeOf.inspect_eq {σ : Type} [Store σ] {s : σ} {resource : Option Url}
    (change : ChangeOf (Snapshot.take s resource) c) :
    Store.inspect s c.key resource = c.recorded (Snapshot.take s resource) := by
  cases change <;> rfl

/-- Carried out on what was recorded, a change sets one member of a mapping that did not have it off. -/
theorem ChangeOf.patches (change : ChangeOf snapshot c) (resource : Option Url) :
    ¬ OptedOut ((c.recorded snapshot).get c.tier) ∧
    ∃ flag old new, Sets c.key flag ∧ mapping? ((c.recorded snapshot).get c.tier) = some old ∧
      (c.toWrite resource (c.recorded snapshot)).value = some (.obj new) ∧
      ∀ id, Members.get? new id = Members.get? (Members.insert Keys.linterFixAll (.bool flag) old) id := by
  cases change with
  | turnOn t m _ mapping unset =>
    have on : ¬ OptedOut (snapshot.codeActions.get t) := by
      rw [optedOut_of_mapping? mapping, unset]
      exact (Option.some_ne_none _).symm
    exact ⟨on, true, m, _, .editor, mapping, rfl, fun _ => rfl⟩
  | turnOff t l m _ mapping on =>
    obtain ⟨new, overlaid, found⟩ := overlay_obj ((snapshot.language l).get t)
      (Members.insert Keys.linterFixAll (.bool false) m)
    refine ⟨fun out => on ((optedOut_of_mapping? mapping).mp out),
      false, m, new, .language l, mapping, overlaid, fun id => ?_⟩
    -- The recorded mapping is laid over itself.
    rw [found, mapping?_eq_some mapping, Members.get?_insert]
    split
    · exact Option.some_or
    · exact Option.or_self

end Migration

namespace Session

open Migration (Sets linterKeys)
open Program (Turn)

variable {σ : Type} [Store σ]

/-- One of the turns was taken for a write. -/
def Written (turns : List (Turn (Session σ) Wait)) (w : SettingWrite) : Prop :=
  ∃ t ∈ turns, t.on = .write w

/-- From one store to another, each write set one member of a mapping, and nothing changed but for the
writes. -/
structure Patched (turns : List (Turn (Session σ) Wait)) (before after : σ) : Prop where
  elsewhere (t : Tier) (key : String) (other : Option Url) :
    (∀ w, Written turns w → w.tier = t →
      (t = .folder → (Store.workspace before).folderUri? other =
        (Store.workspace before).folderUri? w.resource) →
      KeyPath.Apart (KeyPath.segments w.key) (KeyPath.segments key)) →
    (Store.inspect after key other).get t = (Store.inspect before key other).get t
  members (w : SettingWrite) : Written turns w →
    ∃ flag old new, Sets w.key flag ∧
      mapping? ((Store.inspect before w.key w.resource).get w.tier) = some old ∧
      (Store.inspect after w.key w.resource).get w.tier = some (.obj new) ∧
      ∀ id, Members.get? new id = Members.get? (Members.insert Keys.linterFixAll (.bool flag) old) id
  linter (key : String) : key ∈ linterKeys → (∀ w, Written turns w → w.key ≠ key) ∧
    ∀ t other, (Store.inspect after key other).get t = (Store.inspect before key other).get t
  optedOut (w : SettingWrite) : Written turns w →
    ¬ OptedOut ((Store.inspect before w.key w.resource).get w.tier)

variable {s last : Session σ} {resource : Option Url} {turns : List (Turn (Session σ) Wait)}

theorem Wrote.written {changes : List Migration.Change} (wrote : Wrote resource changes s turns last)
    {w : SettingWrite} (written : Written turns w) :
    ∃ c ∈ changes, w.key = c.key ∧ w.tier = c.tier ∧ w.resource = resource := by
  obtain ⟨t, member, on⟩ := written
  obtain ⟨c, listed, attempts⟩ := wrote.attempted member
  rw [Turn.Attempts, on, Wait.write.injEq] at attempts
  exact ⟨c, listed, by rw [attempts]; rfl, by rw [attempts]; rfl, by rw [attempts]; rfl⟩

section Undisturbed

variable [LawfulStore σ]
variable (wrote : Wrote resource (record (Snapshot.take s.store resource) resource).changes s turns last)
variable (quiet : Quiet turns)

include wrote quiet

theorem Wrote.inspect_elsewhere (t : Tier) (key : String) (other : Option Url)
    (apart : ∀ w, Written turns w → w.tier = t →
      (t = .folder → (Store.workspace s.store).folderUri? other =
        (Store.workspace s.store).folderUri? w.resource) →
      KeyPath.Apart (KeyPath.segments w.key) (KeyPath.segments key)) :
    (Store.inspect last.store key other).get t = (Store.inspect s.store key other).get t := by
  refine wrote.inspect_untouched quiet fun turn member w on _ => ?_
  rintro ⟨tier, folder, meets⟩
  exact meets (apart w ⟨turn, member, on⟩ tier.symm folder)

theorem Wrote.linter_kept {key : String} (member : key ∈ linterKeys) :
    (∀ w, Written turns w → w.key ≠ key) ∧
      ∀ t other, (Store.inspect last.store key other).get t = (Store.inspect s.store key other).get t := by
  have apart (w : SettingWrite) (written : Written turns w) :
      KeyPath.Apart (KeyPath.segments w.key) (KeyPath.segments key) := by
    obtain ⟨c, listed, same, _⟩ := wrote.written written
    rw [same]
    exact (Migration.changeOf_of_mem listed).apart_linterKeys member
  refine ⟨fun w written => (apart w written).ne, fun t other => ?_⟩
  exact wrote.inspect_elsewhere quiet t key other fun w written _ _ => apart w written

variable (plain : ∀ t l, (t, l) ∈ optOuts (Snapshot.take s.store resource) → '.' ∉ l.toList)

include plain

theorem Wrote.patched (complete : ∀ t ∈ turns, t.result = .ok ()) : Patched turns s.store last.store where
  elsewhere t key other apart := wrote.inspect_elsewhere quiet t key other apart
  members w written := by
    obtain ⟨c, listed, key, tier, asker⟩ := wrote.written written
    have change := Migration.changeOf_of_mem listed
    obtain ⟨_, flag, old, new, sets, mapping, value, found⟩ := change.patches resource
    rw [← change.inspect_eq] at mapping value
    rw [key, tier, asker]
    exact ⟨flag, old, new, sets, mapping, wrote.inspect_change quiet complete (changes_clear plain) listed
      value change.segments_ne_nil, found⟩
  linter _ member := wrote.linter_kept quiet member
  optedOut w written := by
    obtain ⟨c, listed, key, tier, asker⟩ := wrote.written written
    have change := Migration.changeOf_of_mem listed
    rw [key, tier, asker, change.inspect_eq]
    exact (change.patches resource).1

end Undisturbed

/-- An update that nobody disturbs, and that succeeds, changes one member of each mapping that it
writes. -/
theorem update_patches [LawfulStore σ] (s : Session σ) (resource : Option Url)
    (plain : ∀ t, ∀ l ∈ optedOutLanguages ((Store.inspect s.store Keys.validate resource).get t),
      '.' ∉ l.toList)
    (others : Nat → Session σ → Session σ) :
    let run := (update (record (Snapshot.take s.store resource) resource)).amid others s
    Quiet run.turns → run.value = [] → Patched run.turns s.store run.final.store := by
  intro run quiet succeeds
  have wrote := writeChanges_wrote resource
    (record (Snapshot.take s.store resource) resource).changes others s
  have value := writeChanges_value resource
    (record (Snapshot.take s.store resource) resource).changes others s
  simp only [run, update_amid] at quiet succeeds ⊢
  rw [runPending_store]
  have languages (t : Tier) (l : String) (out : (t, l) ∈ optOuts (Snapshot.take s.store resource)) :
      '.' ∉ l.toList :=
    plain t l ((Migration.mem_optOuts _ t l).mp out).2
  exact wrote.patched quiet languages (wrote.failures_eq_nil_iff.mp (value.symm.trans succeeds))

def projectUrl (path : String) : Url := ⟨"file", some ⟨"", .empty, none⟩, path, none, none⟩

/-- The legacy flag is set for everybody, and fixing is off for one language in a folder. -/
def projectSession : Session MemoryStore :=
  .new ⟨⟨[⟨"project", projectUrl "/project/"⟩], none⟩,
    [("editor", .obj [("tabSize", .ofInt 4)]), ("eslint", .obj [("autoFixOnSave", .bool true)])], [],
    [("file:///project/",
      [("[html]", .obj [("editor", .obj [("codeActionsOnSave", .null), ("wordWrap", .bool true)])]),
        ("eslint", .obj [("validate", .arr [.obj [("autoFix", .bool false), ("language", .str "html")]])])])]⟩
    .inMemory none (fun _ => .error .noLaunch) 0

theorem update_patches_project :
    let document := some (projectUrl "/project/page.html")
    let run := (update (record (Snapshot.take projectSession.store document) document)).amid
      (fun _ s => s) projectSession
    Patched run.turns projectSession.store run.final.store ∧
      run.turns.map Turn.target? = [some (Keys.codeActionsOnSave, .global),
        some (Keys.languageCodeActions "html", .folder)] ∧
      run.final.store.global = [
        ("editor", .obj [("codeActionsOnSave", .obj [(Keys.linterFixAll, .bool true)]), ("tabSize", .ofInt 4)]),
        ("eslint", .obj [("autoFixOnSave", .bool true)])] ∧
      Store.inspect run.final.store "[html].editor" document = ⟨none, none,
        some (.obj [("codeActionsOnSave", .obj [(Keys.linterFixAll, .bool false)]), ("wordWrap", .bool true)])⟩ := by
  intro document run
  have plain : ∀ t, ∀ l ∈ optedOutLanguages
      ((Store.inspect projectSession.store Keys.validate document).get t), '.' ∉ l.toList := by
    intro t
    cases t <;> decide +kernel
  have patched := update_patches projectSession document plain (fun _ s => s)
    (quiet_amid (fun _ _ => rfl) _ _) (by decide +kernel)
  exact ⟨patched, by decide +kernel, by decide +kernel, by decide +kernel⟩

end Session

end LinterClient
