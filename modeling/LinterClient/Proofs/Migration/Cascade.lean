import LinterClient.FixOnSave
import LinterClient.Proofs.Migration.Recording
import LinterClient.Proofs.Store.Memory

/-!
Whether a migration and the lookup for a document mean the same by fixing everything.

Both read the code actions of a tier, and they agree on mappings. A list of actions is read by the lookup
only: for the migration it is no mapping, and a tier that holds one does not fix anything by itself.
-/

namespace LinterClient.Migration

open Json (Members)
open Settings

/-- A list of actions with the linter's or the generic one. -/
def ListsFixAll : Option Json → Prop
  | some (.arr ids) => .str Keys.linterFixAll ∈ ids ∨ .str Keys.fixAll ∈ ids
  | _ => False

/-- Whether the lookup takes a value for one that fixes everything. -/
def isEnabled (v : Option Json) : Bool :=
  v.bind FixOnSave.enabled? = some true

theorem enabled?_obj (m : Members) :
    FixOnSave.enabled? (.obj m) = ((CodeActions.mk m).linterFixAll <|> (CodeActions.mk m).fixAll) := rfl

theorem enabled?_arr (ids : List Json) :
    FixOnSave.enabled? (.arr ids) = some true ↔ ListsFixAll (some (.arr ids)) := by
  have listed : (ids.any fun id => id = .str Keys.linterFixAll ∨ id = .str Keys.fixAll) = true ↔
      ListsFixAll (some (.arr ids)) := by
    simp only [List.any_eq_true, decide_eq_true_eq, ListsFixAll]
    constructor
    · rintro ⟨id, member, rfl | rfl⟩
      · exact .inl member
      · exact .inr member
    · rintro (member | member)
      · exact ⟨_, member, .inl rfl⟩
      · exact ⟨_, member, .inr rfl⟩
  rw [← listed, FixOnSave.enabled?]
  exact ite_eq_left_iff.trans (by simp only [reduceCtorEq, imp_false, not_not])

theorem getD_eq_decide (a b : Option Bool) : a.getD (b.getD false) = decide ((a <|> b) = some true) := by
  cases a with
  | none => cases b <;> simp
  | some on => simp

/-- A mapping fixes everything by itself if the lookup says so of what becomes of it. -/
theorem migrateAutoFix_of_mapping (autoFix : Option Json) {v : Option Json} {m : Members}
    (mapping : mapping? v = some m) :
    (migrateAutoFix autoFix ⟨v, false⟩).2 = isEnabled (migrateAutoFix autoFix ⟨v, false⟩).1.value := by
  simp only [migrateAutoFix, mapping]
  by_cases out : (CodeActions.mk m).isOptedOut = true
  · have off : (CodeActions.mk m).linterFixAll = some false := by
      rw [CodeActions.linterFixAll, CodeActions.get?, (isOptedOut_iff _).mp out]
      rfl
    simp [out, isEnabled, CodeActions.toJson, enabled?_obj, off]
  · rw [if_neg out]
    split
    · have on : ((CodeActions.mk m).setLinterFixAll true).linterFixAll = some true := by
        simp [CodeActions.linterFixAll, CodeActions.get?, CodeActions.setLinterFixAll, actionFlag]
      simp [isEnabled, CodeActions.toJson, enabled?_obj, on]
    · simp only [isEnabled, CodeActions.toJson, Option.bind_some, enabled?_obj]
      exact getD_eq_decide _ _

/-- Any other value stays, and fixes nothing by itself. The lookup looks into it if it is a list. -/
theorem migrateAutoFix_of_not_mapping (autoFix : Option Json) {v : Option Json}
    (other : mapping? v = none) :
    (migrateAutoFix autoFix ⟨v, false⟩).2 = false ∧
      (isEnabled (migrateAutoFix autoFix ⟨v, false⟩).1.value = true ↔ ListsFixAll v) := by
  simp only [migrateAutoFix, other, true_and, isEnabled, decide_eq_true_eq]
  rcases v with _ | _ | _ | _ | _ | ids | _
  case some.arr => exact enabled?_arr ids
  all_goals simp [mapping?, FixOnSave.enabled?, ListsFixAll] at other ⊢

theorem migrateAutoFix_snd_iff (autoFix v : Option Json) :
    (migrateAutoFix autoFix ⟨v, false⟩).2 = true ↔
      IsMapping v ∧ isEnabled (migrateAutoFix autoFix ⟨v, false⟩).1.value = true := by
  rw [isMapping_iff]
  cases mapping : mapping? v with
  | none => simp [(migrateAutoFix_of_not_mapping autoFix mapping).1]
  | some m => simp [migrateAutoFix_of_mapping autoFix mapping]

theorem isEnabled_iff (autoFix v : Option Json) :
    isEnabled (migrateAutoFix autoFix ⟨v, false⟩).1.value = true ↔
      (migrateAutoFix autoFix ⟨v, false⟩).2 = true ∨ ListsFixAll v := by
  cases mapping : mapping? v with
  | none =>
    obtain ⟨idle, listed⟩ := migrateAutoFix_of_not_mapping autoFix mapping
    rw [idle, listed]
    simp
  | some m =>
    have noList : ¬ ListsFixAll v := by
      rcases v with _ | _ | _ | _ | _ | _ | _
      case some.arr => cases mapping
      all_goals exact id
    rw [or_iff_left noList, migrateAutoFix_of_mapping autoFix mapping]

section Cascade

variable {σ : Type} [Store σ] (s : σ) (resource : Option Url)

/-- A tier fixes everything for the migration if the lookup says so of a mapping that is recorded in it or
in a broader tier. The lookup says so beyond that where one of these tiers holds a list with such an
action. -/
theorem fixAll_exact (t : Tier) :
    let r := record (Snapshot.take s resource) resource
    (r.fixAll t = true ↔ ∃ u ∈ t.upTo, IsMapping (held s resource Keys.codeActionsOnSave u) ∧
      isEnabled (r.codeActions.get u).value = true) ∧
    ((∃ u ∈ t.upTo, isEnabled (r.codeActions.get u).value = true) ↔
      r.fixAll t = true ∨ ∃ u ∈ t.upTo, ListsFixAll (held s resource Keys.codeActionsOnSave u)) := by
  intro r
  have own : r.fixAll t = true ↔ ∃ u ∈ t.upTo, (migrateAutoFix (held s resource Keys.autoFixOnSave u)
      ⟨held s resource Keys.codeActionsOnSave u, false⟩).2 = true := List.any_eq_true
  have recorded (u : Tier) : r.codeActions.get u = (migrateAutoFix (held s resource Keys.autoFixOnSave u)
      ⟨held s resource Keys.codeActionsOnSave u, false⟩).1 := Family.get_ofFn _ u
  constructor
  · simp only [own, recorded, migrateAutoFix_snd_iff]
  · simp only [own, recorded, isEnabled_iff, and_or_left, exists_or]

/-- With the linter's action in a list, the lookup fixes everything and the migration nothing. -/
theorem fixAll_exact_list :
    let list : SettingWrite := ⟨Keys.codeActionsOnSave, some (.arr [.str Keys.linterFixAll]), .global, none⟩
    let s := (Store.write (MemoryStore.new ⟨[], none⟩) list).2
    let r := record (Snapshot.take s none) none
    isEnabled (r.codeActions.get .global).value = true ∧ r.fixAll .global = false := by
  intro list s r
  have kept : held s none Keys.codeActionsOnSave .global = some (.arr [.str Keys.linterFixAll]) := by
    decide +kernel
  have listed : ListsFixAll (held s none Keys.codeActionsOnSave .global) := by
    rw [kept]
    exact .inl List.mem_cons_self
  have idle : r.fixAll .global = false := by decide +kernel
  obtain ⟨u, member, enabled⟩ := (fixAll_exact s none .global).2.mpr (.inr ⟨.global, by decide, listed⟩)
  cases List.mem_singleton.mp member
  exact ⟨enabled, idle⟩

end Cascade

end LinterClient.Migration
