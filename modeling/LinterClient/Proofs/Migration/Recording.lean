import LinterClient.Proofs.Migration.Changes
import LinterClient.Proofs.Text.Utf8

/-!
What a migration records, said for each tier and language on its own.

The rules below look only at what the tiers hold. Recording carries them out in one pass, with a flag
that is handed from tier to tier and sections that are read when they are first needed, and comes to
the same.
-/

namespace LinterClient.Migration

open Json (Members)
open Settings

/-! ## The rules -/

/-- Whether a mapping can be meant: nothing, null or an object. -/
def IsMapping : Option Json → Prop
  | none | some .null | some (.obj _) => True
  | some _ => False

instance : DecidablePred IsMapping
  | none | some .null | some (.obj _) => isTrue trivial
  | some (.bool _) | some (.num _) | some (.str _) | some (.arr _) => isFalse id

/-- A member of a mapping; other values have none. -/
def member? (v : Option Json) (id : String) : Option Json :=
  v.bind (·.get? id)

/-- Whether a mapping turns an action on or off, if it decides it. -/
def flag? (v : Option Json) (id : String) : Option Bool :=
  (member? v id).bind actionFlag

/-- The legacy flag of a tier becomes the linter's action: nothing is said of that yet, and the generic
action is not on. -/
def TurnsOn (autoFix actions : Option Json) : Prop :=
  truthy autoFix = true ∧ IsMapping actions ∧ member? actions Keys.linterFixAll = none ∧
    flag? actions Keys.fixAll ≠ some true

instance (autoFix actions : Option Json) : Decidable (TurnsOn autoFix actions) :=
  inferInstanceAs (Decidable (_ ∧ _))

/-- Whether a tier fixes everything by itself. -/
def fixesItself (autoFix actions : Option Json) : Bool :=
  if TurnsOn autoFix actions then true
  else if ¬ IsMapping actions ∨ member? actions Keys.linterFixAll = some (.bool false) then false
  else (flag? actions Keys.linterFixAll <|> flag? actions Keys.fixAll).getD false

/-- An entry that turns fixing off for a language. -/
def IsOptOut (l : String) (entry : Json) : Prop :=
  entry.get? "language" = some (.str l) ∧ entry.get? "autoFix" = some (.bool false)

instance (l : String) (entry : Json) : Decidable (IsOptOut l entry) :=
  inferInstanceAs (Decidable (_ ∧ _))

/-- A list with such an entry. -/
def Lists (l : String) : Option Json → Prop
  | some (.arr entries) => ∃ entry ∈ entries, IsOptOut l entry
  | _ => False

instance (l : String) : DecidablePred (Lists l)
  | some (.arr entries) => inferInstanceAs (Decidable (∃ entry ∈ entries, IsOptOut l entry))
  | none | some .null | some (.bool _) | some (.num _) | some (.str _) | some (.obj _) => isFalse id

section Rules

variable {σ : Type} [Store σ] (s : σ) (resource : Option Url)

/-- What a tier holds. -/
def held (key : String) (t : Tier) : Option Json :=
  (Store.inspect s key resource).get t

/-- The linter's action is turned on in a tier. -/
def IsTurnedOn (t : Tier) : Prop :=
  TurnsOn (held s resource Keys.autoFixOnSave t) (held s resource Keys.codeActionsOnSave t)

instance : DecidablePred (IsTurnedOn s resource) :=
  fun _ => inferInstanceAs (Decidable (TurnsOn _ _))

/-- A tier or a broader one fixes everything. -/
def FixesAll (t : Tier) : Prop :=
  ∃ u ∈ t.upTo,
    fixesItself (held s resource Keys.autoFixOnSave u) (held s resource Keys.codeActionsOnSave u) = true

instance : DecidablePred (FixesAll s resource) :=
  fun t => inferInstanceAs (Decidable (∃ u ∈ t.upTo, _ = true))

/-- The linter's action is turned off in a tier for a language. -/
def IsTurnedOff (l : String) (t : Tier) : Prop :=
  FixesAll s resource t ∧ Lists l (held s resource Keys.validate t) ∧
    IsMapping (held s resource (Keys.languageCodeActions l) t) ∧
    member? (held s resource (Keys.languageCodeActions l) t) Keys.linterFixAll ≠ some (.bool false)

instance (l : String) : DecidablePred (IsTurnedOff s resource l) :=
  fun _ => inferInstanceAs (Decidable (_ ∧ _))

/-- A key in each of the tiers that a rule changes, broadest first. -/
def targets (key : String) (p : Tier → Prop) [DecidablePred p] : List (String × Tier) :=
  (Tier.all.filter (p ·)).map (key, ·)

end Rules

/-! ## What each rule does -/

theorem isMapping_iff (v : Option Json) : IsMapping v ↔ ∃ m, mapping? v = some m := by
  rcases v with _ | _ | _ | _ | _ | _ | _ <;> simp [IsMapping, mapping?]

theorem member?_eq {v : Option Json} {m : Members} (mapping : mapping? v = some m) (id : String) :
    member? v id = Members.get? m id := by
  rcases v with _ | _ | _ | _ | _ | _ | _ <;> simp only [mapping?, reduceCtorEq, Option.some.injEq] at mapping
  all_goals
    subst mapping
    rfl

/-- The rule for the legacy flag changes a tier and says what it fixes as it should. -/
theorem migrateAutoFix_exact (autoFix v : Option Json) :
    ((migrateAutoFix autoFix ⟨v, false⟩).1.changed = true ↔ TurnsOn autoFix v) ∧
      (migrateAutoFix autoFix ⟨v, false⟩).2 = fixesItself autoFix v := by
  cases mapping : mapping? v with
  | none =>
    have other : ¬ IsMapping v := by simp [isMapping_iff, mapping]
    simp [migrateAutoFix, mapping, TurnsOn, fixesItself, other]
  | some m =>
    have place : IsMapping v := (isMapping_iff v).mpr ⟨m, mapping⟩
    have linter := member?_eq mapping Keys.linterFixAll
    have generic : flag? v Keys.fixAll = (CodeActions.mk m).fixAll := by
      rw [flag?, member?_eq mapping]
      rfl
    have flag : flag? v Keys.linterFixAll = (CodeActions.mk m).linterFixAll := by
      rw [flag?, linter]
      rfl
    by_cases out : (CodeActions.mk m).isOptedOut = true
    · have off := (isOptedOut_iff _).mp out
      simp [migrateAutoFix, mapping, out, TurnsOn, fixesItself, linter, off]
    · have on : Members.get? m Keys.linterFixAll ≠ some (.bool false) :=
        fun off => out ((isOptedOut_iff _).mpr off)
      have undecided : (!(CodeActions.mk m).fixAll.getD false) = true ↔ flag? v Keys.fixAll ≠ some true := by
        rw [generic]
        cases (CodeActions.mk m).fixAll with
        | none => simp
        | some on => cases on <;> simp
      have turns : (truthy autoFix ∧ !(CodeActions.mk m).fixAll.getD false ∧
          ((CodeActions.mk m).get? Keys.linterFixAll).isNone) ↔ TurnsOn autoFix v := by
        rw [undecided, Option.isNone_iff_eq_none, CodeActions.get?, ← linter, TurnsOn]
        tauto
      simp only [migrateAutoFix, mapping, out, Bool.false_eq_true, if_false, turns]
      by_cases asked : TurnsOn autoFix v
      · simp [asked, fixesItself]
      · simp only [asked, if_false, fixesItself, place, not_true_eq_false, linter, on, or_self, flag, generic]
        refine ⟨by simp, ?_⟩
        cases (CodeActions.mk m).linterFixAll <;> rfl

/-- The rule for an opt-out changes a tier unless its mapping is one already, or no mapping at all. -/
theorem migrateOptOut_exact (v : Option Json) :
    (migrateOptOut ⟨v, false⟩).changed = true ↔
      IsMapping v ∧ member? v Keys.linterFixAll ≠ some (.bool false) := by
  cases mapping : mapping? v with
  | none =>
    have other : ¬ IsMapping v := by simp [isMapping_iff, mapping]
    simp [migrateOptOut, mapping, other]
  | some m =>
    have place : IsMapping v := (isMapping_iff v).mpr ⟨m, mapping⟩
    have settled : Members.get? m Keys.linterFixAll = some (.bool false) ↔
        (CodeActions.mk m).isOptedOut = true := (isOptedOut_iff ⟨m⟩).symm
    rw [member?_eq mapping, Ne, settled]
    by_cases out : (CodeActions.mk m).isOptedOut = true
    · simp [migrateOptOut, mapping, out]
    · simp [migrateOptOut, mapping, out, place]

theorem mem_optedOutLanguages (v : Option Json) (l : String) : l ∈ optedOutLanguages v ↔ Lists l v := by
  rcases v with _ | _ | _ | _ | _ | entries | _ <;> simp only [optedOutLanguages, Lists, List.not_mem_nil]
  rw [List.mem_filterMap]
  refine exists_congr fun entry => and_congr_right fun _ => ?_
  cases entry with
  | obj m =>
    simp only [IsOptOut, Json.get?]
    by_cases off : Members.get? m "autoFix" = some (.bool false)
    · simp only [off, if_true, and_true, Option.bind_eq_some_iff]
      constructor
      · rintro ⟨name, found, text⟩
        cases name <;> simp_all [Json.asString?]
      · intro found
        exact ⟨.str l, found, rfl⟩
    · simp [off]
  | _ => simp [IsOptOut, Json.get?]

/-! ## A whole pass -/

theorem flatMap_filter {α β : Type} {f : α → List β} {p : α → Bool} {l : List α}
    (nothing : ∀ x ∈ l, p x = false → f x = []) : (l.filter p).flatMap f = l.flatMap f := by
  induction l with
  | nil => rfl
  | cons x rest ih =>
    have tail := ih fun y member => nothing y (List.mem_cons_of_mem x member)
    cases kept : p x with
    | true => rw [List.filter_cons_of_pos kept, List.flatMap_cons, List.flatMap_cons, tail]
    | false => simp [kept, tail, nothing x List.mem_cons_self kept]

section Pass

variable {σ : Type} [Store σ] (s : σ) (resource : Option Url)

theorem record_fixAll_iff (t : Tier) :
    (record (Snapshot.take s resource) resource).fixAll t = true ↔ FixesAll s resource t := by
  have own (u : Tier) : (ownFixAll (Snapshot.take s resource) u).2 =
      fixesItself (held s resource Keys.autoFixOnSave u) (held s resource Keys.codeActionsOnSave u) :=
    (migrateAutoFix_exact _ _).2
  simp only [record, List.any_eq_true, own, FixesAll]

theorem record_codeActions_changed_iff (t : Tier) :
    ((record (Snapshot.take s resource) resource).codeActions.get t).changed = true ↔
      IsTurnedOn s resource t := by
  simp only [record, Family.get_ofFn]
  exact (migrateAutoFix_exact _ _).1

theorem mem_optOuts_take (t : Tier) (l : String) :
    (t, l) ∈ optOuts (Snapshot.take s resource) ↔
      FixesAll s resource t ∧ Lists l (held s resource Keys.validate t) := by
  rw [mem_optOuts, mem_optedOutLanguages]
  exact and_congr_left' (record_fixAll_iff s resource t)

variable {s resource}

/-- A section is changed in the tiers in which its language is turned off. -/
theorem section_changed_iff {l : String} {f : Family}
    (member : (l, f) ∈ (record (Snapshot.take s resource) resource).languages) (t : Tier) :
    (f.get t).changed = true ↔ IsTurnedOff s resource l t := by
  rw [(section_of_mem_languages member).2 t, sectionAfter, IsTurnedOff, ← and_assoc, ← mem_optOuts_take]
  by_cases out : (t, l) ∈ optOuts (Snapshot.take s resource)
  · rw [if_pos out, migrateOptOut_exact]
    exact (and_iff_right out).symm
  · simp [out]

theorem exists_section_iff (l : String) (t : Tier) :
    (∃ f, (l, f) ∈ (record (Snapshot.take s resource) resource).languages ∧ (f.get t).changed = true) ↔
      IsTurnedOff s resource l t := by
  constructor
  · rintro ⟨f, member, changed⟩
    exact (section_changed_iff member t).mp changed
  · intro off
    obtain ⟨f, member⟩ := mem_languages_of_optOut resource
      ((mem_optOuts_take s resource t l).mpr ⟨off.1, off.2.1⟩)
    exact ⟨f, member, (section_changed_iff member t).mpr off⟩

theorem familyChanges_targets (key : String) (language : Option String) {f : Family} {p : Tier → Prop}
    [DecidablePred p] (changed : ∀ t, (f.get t).changed = true ↔ p t) :
    (familyChanges key language f).map (fun c => (c.key, c.tier)) = targets key p := by
  rw [familyChanges, targets, List.map_filterMap, ← List.filterMap_eq_map, List.filterMap_filter]
  congr 1
  funext t
  by_cases asked : p t
  · simp [asked, (changed t).mpr asked]
  · simp [asked, mt (changed t).mp asked]

/-- The languages whose sections are changed, in the order of their sections. -/
def changedLanguages (r : Recorded) : List String :=
  (r.languages.filter (·.2.needsUpdate)).map (·.1)

theorem mem_changedLanguages (l : String) :
    l ∈ changedLanguages (record (Snapshot.take s resource) resource) ↔
      ∃ t, IsTurnedOff s resource l t := by
  have changes (f : Family) : f.needsUpdate = true ↔ ∃ t, (f.get t).changed = true := by
    rw [← not_iff_not, Bool.not_eq_true, Family.needsUpdate_eq_false]
    simp
  simp only [changedLanguages, List.mem_map, List.mem_filter, changes, ← exists_section_iff]
  constructor
  · rintro ⟨⟨name, f⟩, ⟨member, t, changed⟩, rfl⟩
    exact ⟨t, f, member, changed⟩
  · rintro ⟨t, f, member, changed⟩
    exact ⟨(l, f), ⟨member, t, changed⟩, rfl⟩

theorem changes_targets :
    (record (Snapshot.take s resource) resource).changes.map (fun c => (c.key, c.tier)) =
      targets Keys.codeActionsOnSave (IsTurnedOn s resource) ++
        (changedLanguages (record (Snapshot.take s resource) resource)).flatMap fun l =>
          targets (Keys.languageCodeActions l) (IsTurnedOff s resource l) := by
  rw [record_changes, List.map_append, List.map_flatMap, changedLanguages, List.flatMap_map]
  congr 1
  · exact familyChanges_targets _ _ (record_codeActions_changed_iff s resource)
  · rw [flatMap_filter]
    · refine List.flatMap_congr fun p member => ?_
      exact familyChanges_targets _ _ (section_changed_iff member)
    · intro p member settled
      have unchanged := (familyChanges_eq_nil_iff (Keys.languageCodeActions p.1) none p.2).mpr settled
      rw [← familyChanges_targets _ none (section_changed_iff member), unchanged, List.map_nil]

theorem pairwise_changedLanguages (snapshot : Snapshot) :
    (changedLanguages (record snapshot resource)).Pairwise fun a b => Utf8.encode a < Utf8.encode b := by
  rw [changedLanguages, List.pairwise_map]
  refine List.Pairwise.sublist List.filter_sublist ?_
  refine (record_tracks snapshot resource).sorted.imp fun {a b} less => ?_
  exact (Utf8.encode_lt_encode_iff a.1 b.1).mpr less

theorem nodup_changes (snapshot : Snapshot) :
    ((record snapshot resource).changes.map fun c => (c.key, c.tier)).Nodup := by
  refine List.pairwise_map.mpr ((changes_pairwise snapshot resource).imp fun {a b} before same => ?_)
  obtain ⟨sameKey, sameTier⟩ := Prod.mk.inj same
  exact before.tier_ne sameKey sameTier

end Pass

/-- A migration records what the rules say: what is changed in each tier, what each tier fixes, and which
writes are asked for in which order. -/
theorem record_exact {σ : Type} [Store σ] (s : σ) (resource : Option Url) :
    let r := record (Snapshot.take s resource) resource
    (∀ t, (r.codeActions.get t).changed = true ↔ IsTurnedOn s resource t) ∧
    (∀ t, (ownFixAll (Snapshot.take s resource) t).2 =
      fixesItself (held s resource Keys.autoFixOnSave t) (held s resource Keys.codeActionsOnSave t)) ∧
    (∀ t, r.fixAll t = true ↔ FixesAll s resource t) ∧
    (∀ l t, (∃ f, (l, f) ∈ r.languages ∧ (f.get t).changed = true) ↔ IsTurnedOff s resource l t) ∧
    (∃ languages : List String,
      languages.Pairwise (fun a b => Utf8.encode a < Utf8.encode b) ∧
      (∀ l, l ∈ languages ↔ ∃ t, IsTurnedOff s resource l t) ∧
      r.changes.map (fun c => (c.key, c.tier)) =
        targets Keys.codeActionsOnSave (IsTurnedOn s resource) ++
          languages.flatMap fun l => targets (Keys.languageCodeActions l) (IsTurnedOff s resource l)) ∧
    (r.changes.map fun c => (c.key, c.tier)).Nodup ∧
    (r.needsUpdate = true ↔ r.changes ≠ []) := by
  intro r
  refine ⟨record_codeActions_changed_iff s resource, fun t => (migrateAutoFix_exact _ _).2,
    record_fixAll_iff s resource, exists_section_iff, ?_, nodup_changes _, ?_⟩
  · exact ⟨changedLanguages r, pairwise_changedLanguages _, mem_changedLanguages, changes_targets⟩
  · rw [Ne, Recorded.changes_eq_nil_iff, Bool.not_eq_false]

end LinterClient.Migration
