import LinterClient.Migration.Record
import LinterClient.Proofs.Json.Members

/-!
The rules for one tier.

A rule changes a mapping of code actions in one member only. Applied to what it made, it changes nothing
and comes to the same result.
-/

namespace LinterClient.Migration

open Json (Members)
open Settings

theorem isOptedOut_iff (a : CodeActions) :
    a.isOptedOut = true ↔ Members.get? a.members Keys.linterFixAll = some (.bool false) :=
  decide_eq_true_iff

/-- Whether a value is a mapping that turns the linter's action off for good. -/
def OptedOut (v : Option Json) : Prop :=
  (CodeActions.ofValue v).isOptedOut = true

instance (v : Option Json) : Decidable (OptedOut v) :=
  inferInstanceAs (Decidable (_ = true))

theorem optedOut_obj (m : Members) :
    OptedOut (some (.obj m)) ↔ Members.get? m Keys.linterFixAll = some (.bool false) :=
  isOptedOut_iff _

/-- A value that is a mapping reads as it is written, and any other as an empty one. -/
theorem mapping?_eq_some {v : Option Json} {m : Members} (h : mapping? v = some m) :
    (CodeActions.ofValue v).members = m := by
  rcases v with _ | _ | _ | _ | _ | _ | _ <;> simp_all [mapping?, CodeActions.ofValue, CodeActions.empty]

theorem optedOut_of_mapping? {v : Option Json} {m : Members} (h : mapping? v = some m) :
    OptedOut v ↔ Members.get? m Keys.linterFixAll = some (.bool false) := by
  rw [← mapping?_eq_some h]
  exact isOptedOut_iff _

/-- Turning the linter's action on needs a mapping that says nothing about it. -/
theorem migrateAutoFix_cases (autoFix v : Option Json) :
    (migrateAutoFix autoFix ⟨v, false⟩).1.changed = false ∨
      ∃ m, truthy autoFix = true ∧ mapping? v = some m ∧
        Members.get? m Keys.linterFixAll = none ∧ migrateAutoFix autoFix ⟨v, false⟩ =
          (⟨some (.obj (Members.insert Keys.linterFixAll (.bool true) m)), true⟩, true) := by
  cases mapping : mapping? v with
  | none => simp [migrateAutoFix, mapping]
  | some m =>
    by_cases out : (CodeActions.mk m).isOptedOut = true
    · simp [migrateAutoFix, mapping, out]
    · by_cases on : truthy autoFix ∧ !((CodeActions.mk m).fixAll.getD false) ∧
          ((CodeActions.mk m).get? Keys.linterFixAll).isNone
      · refine .inr ⟨m, on.1, rfl, Option.isNone_iff_eq_none.mp on.2.2, ?_⟩
        simp only [migrateAutoFix, mapping, out, on]
        rfl
      · left
        simp only [migrateAutoFix, mapping, out, on]
        rfl

/-- With the linter's action on, a mapping stays and fixes everything. -/
theorem migrateAutoFix_on (autoFix : Option Json) {m : Members}
    (on : Members.get? m Keys.linterFixAll = some (.bool true)) :
    migrateAutoFix autoFix ⟨some (.obj m), false⟩ = (⟨some (.obj m), false⟩, true) := by
  have out : (CodeActions.mk m).isOptedOut = false := by
    simp [CodeActions.isOptedOut, CodeActions.get?, on]
  have flag : (CodeActions.mk m).linterFixAll = some true := by
    simp [CodeActions.linterFixAll, CodeActions.get?, on, actionFlag]
  simp [migrateAutoFix, mapping?, out, flag, CodeActions.get?, on, CodeActions.toJson]

/-- What a tier holds after a rule was carried out in it. -/
def Element.stored (e : Element) (old : Option Json) : Option Json :=
  if e.changed then e.value else old

theorem migrateAutoFix_stored (autoFix v : Option Json) :
    let r := migrateAutoFix autoFix ⟨v, false⟩
    let again := migrateAutoFix autoFix ⟨r.1.stored v, false⟩
    again.1.changed = false ∧ again.2 = r.2 := by
  obtain same | ⟨m, _, _, _, made⟩ := migrateAutoFix_cases autoFix v
  · simp only [Element.stored, same]
    exact ⟨same, rfl⟩
  · simp only [Element.stored, made, if_true]
    rw [migrateAutoFix_on autoFix (Members.get?_insert_self _ _ _)]
    exact ⟨rfl, rfl⟩

/-- Turning the linter's action off needs a mapping that does not do so already. -/
theorem migrateOptOut_cases (v : Option Json) :
    (migrateOptOut ⟨v, false⟩).changed = false ∨
      ∃ m, mapping? v = some m ∧ Members.get? m Keys.linterFixAll ≠ some (.bool false) ∧
        migrateOptOut ⟨v, false⟩ =
          ⟨some (.obj (Members.insert Keys.linterFixAll (.bool false) m)), true⟩ := by
  cases mapping : mapping? v with
  | none => simp [migrateOptOut, mapping]
  | some m =>
    by_cases out : (CodeActions.mk m).isOptedOut = true
    · simp [migrateOptOut, mapping, out]
    · refine .inr ⟨m, rfl, fun off => out ((isOptedOut_iff _).mpr off), ?_⟩
      simp only [migrateOptOut, mapping, out, Bool.false_eq_true, if_false]
      rfl

theorem migrateOptOut_off (changed : Bool) {m : Members}
    (off : Members.get? m Keys.linterFixAll = some (.bool false)) :
    migrateOptOut ⟨some (.obj m), changed⟩ = ⟨some (.obj m), changed⟩ := by
  have out : (CodeActions.mk m).isOptedOut = true := by
    simp [CodeActions.isOptedOut, CodeActions.get?, off]
  simp [migrateOptOut, mapping?, out, CodeActions.toJson]

theorem migrateOptOut_idempotent (e : Element) : migrateOptOut (migrateOptOut e) = migrateOptOut e := by
  obtain ⟨v, changed⟩ := e
  cases mapping : mapping? v with
  | none => simp [migrateOptOut, mapping]
  | some m =>
    by_cases off : Members.get? m Keys.linterFixAll = some (.bool false)
    · have once : migrateOptOut ⟨v, changed⟩ = ⟨some (.obj m), changed⟩ := by
        simp [migrateOptOut, mapping, CodeActions.isOptedOut, CodeActions.get?, off, CodeActions.toJson]
      rw [once, migrateOptOut_off changed off]
    · have once : migrateOptOut ⟨v, changed⟩ =
          ⟨some (.obj (Members.insert Keys.linterFixAll (.bool false) m)), true⟩ := by
        simp [migrateOptOut, mapping, CodeActions.isOptedOut, CodeActions.get?, off, CodeActions.toJson,
          CodeActions.setLinterFixAll]
      rw [once, migrateOptOut_off true (Members.get?_insert_self _ _ _)]

/-- A mapping laid over what is held decides its own members, and leaves the others. -/
theorem overlay_obj (current : Option Json) (m : Members) :
    ∃ n, overlay current (some (.obj m)) = some (.obj n) ∧
      ∀ id, Members.get? n id =
        (Members.get? m id).or (Members.get? (CodeActions.ofValue current).members id) := by
  rcases current with _ | _ | _ | _ | _ | _ | held
  case some.obj => exact ⟨Members.extend held m, rfl, Members.get?_extend held m⟩
  all_goals exact ⟨m, rfl, fun id => by simp [CodeActions.ofValue, CodeActions.empty]⟩

end LinterClient.Migration
