import LinterClient.Proofs.KeyPath
import LinterClient.Proofs.Migration.Languages

/-!
The writes that a migration asks for.

There are two kinds: one turns the linter's action on in the editor's setting, the other turns it off in
the section of a language. No two of them meet on the way to their keys, as long as the names of
languages have no dots.
-/

namespace LinterClient.Migration

open Json (Members)
open Settings

theorem languageCodeActions_toList (l : String) :
    (Keys.languageCodeActions l).toList =
      '[' :: (l.toList ++ "].editor.codeActionsOnSave".toList) := by
  simp [Keys.languageCodeActions, Keys.languageSection, Keys.codeActionsOnSave]

theorem languageCodeActions_injective {l l' : String}
    (same : Keys.languageCodeActions l = Keys.languageCodeActions l') : l = l' := by
  have texts := congrArg String.toList same
  rw [languageCodeActions_toList, languageCodeActions_toList, List.cons.injEq,
    List.append_cancel_right_eq] at texts
  exact String.toList_inj.mp texts.2

theorem languageCodeActions_ne (l : String) : Keys.codeActionsOnSave ≠ Keys.languageCodeActions l := by
  intro same
  have texts := congrArg String.toList same
  rw [languageCodeActions_toList] at texts
  simp [Keys.codeActionsOnSave] at texts

theorem segments_codeActionsOnSave :
    KeyPath.segments Keys.codeActionsOnSave = ["editor", "codeActionsOnSave"] := by decide

/-- The section of a language without dots is one segment. -/
theorem segments_languageCodeActions {l : String} (plain : '.' ∉ l.toList) :
    KeyPath.segments (Keys.languageCodeActions l) =
      [Keys.languageSection l, "editor", "codeActionsOnSave"] := by
  have noDot : '.' ∉ (Keys.languageSection l).toList := by
    simpa [Keys.languageSection] using plain
  have filled : Keys.languageSection l ≠ "" := by
    intro empty
    have texts := congrArg String.toList empty
    simp [Keys.languageSection] at texts
  rw [Keys.languageCodeActions, KeyPath.segments_append, KeyPath.segments_of_no_dot noDot filled,
    segments_codeActionsOnSave]
  rfl

theorem languageSection_injective {l l' : String}
    (same : Keys.languageSection l = Keys.languageSection l') : l = l' := by
  have texts := congrArg String.toList same
  simp only [Keys.languageSection, String.toList_append, List.append_cancel_right_eq,
    List.append_cancel_left_eq] at texts
  exact String.toList_inj.mp texts

theorem languageSection_ne (l : String) {s : String} (first : s.toList.head? ≠ some '[') :
    s ≠ Keys.languageSection l := by
  intro same
  rw [same] at first
  simp [Keys.languageSection] at first

theorem apart_languageCodeActions {l : String} (plain : '.' ∉ l.toList) :
    KeyPath.Apart (KeyPath.segments Keys.codeActionsOnSave)
      (KeyPath.segments (Keys.languageCodeActions l)) := by
  rw [segments_codeActionsOnSave, segments_languageCodeActions plain]
  exact KeyPath.apart_of_head_ne _ _ (languageSection_ne l (by decide))

theorem apart_languages {l l' : String} (plain : '.' ∉ l.toList) (plain' : '.' ∉ l'.toList)
    (different : l ≠ l') :
    KeyPath.Apart (KeyPath.segments (Keys.languageCodeActions l))
      (KeyPath.segments (Keys.languageCodeActions l')) := by
  rw [segments_languageCodeActions plain, segments_languageCodeActions plain']
  exact KeyPath.apart_of_head_ne _ _ fun same => different (languageSection_injective same)

theorem mem_familyChanges (key : String) (language : Option String) (f : Family) (c : Change) :
    c ∈ familyChanges key language f ↔
      ∃ t, (f.get t).changed = true ∧ c = ⟨key, t, (f.get t).value, language⟩ := by
  simp only [familyChanges, List.mem_filterMap]
  constructor
  · rintro ⟨t, _, found⟩
    split at found
    · cases found
      exact ⟨t, ‹_›, rfl⟩
    · cases found
  · rintro ⟨t, changed, rfl⟩
    exact ⟨t, by cases t <;> simp [Tier.all], by simp [changed]⟩

theorem familyChanges_eq_nil_iff (key : String) (language : Option String) (f : Family) :
    familyChanges key language f = [] ↔ f.needsUpdate = false := by
  rw [Family.needsUpdate_eq_false, List.eq_nil_iff_forall_not_mem]
  constructor
  · intro empty t
    refine Bool.eq_false_iff.mpr fun changed => ?_
    exact empty _ ((mem_familyChanges key language f _).mpr ⟨t, changed, rfl⟩)
  · intro unchanged c member
    obtain ⟨t, changed, _⟩ := (mem_familyChanges key language f c).mp member
    rw [unchanged t] at changed
    cases changed

theorem Recorded.changes_eq_nil_iff (r : Recorded) : r.changes = [] ↔ r.needsUpdate = false := by
  simp only [changes, needsUpdate, List.append_eq_nil_iff, familyChanges_eq_nil_iff,
    List.flatMap_eq_nil_iff, Bool.or_eq_false_iff, List.any_eq_false, Bool.not_eq_true]

theorem needsUpdate_ofScoped (s : Scoped Json) : (Family.ofScoped s).needsUpdate = false := by
  rw [Family.needsUpdate_eq_false]
  intro t
  rw [Family.get_ofScoped]

theorem record_changes (snapshot : Snapshot) (resource : Option Url) :
    (record snapshot resource).changes =
      familyChanges Keys.codeActionsOnSave none (.ofFn fun t => (ownFixAll snapshot t).1) ++
        (record snapshot resource).languages.flatMap fun p =>
          familyChanges (Keys.languageCodeActions p.1) (some p.1) p.2 := by
  have none (key : String) (s : Scoped Json) : familyChanges key .none (.ofScoped s) = [] :=
    (familyChanges_eq_nil_iff _ _ _).mpr (needsUpdate_ofScoped s)
  simp only [Recorded.changes, record, none, List.append_nil]

variable {snapshot : Snapshot} {resource : Option Url}

/-- The changed tiers of the editor's setting are written, and those of the sections that are opted
out. -/
theorem mem_changes_iff (c : Change) :
    c ∈ (record snapshot resource).changes ↔
      (∃ t, (ownFixAll snapshot t).1.changed = true ∧
        c = ⟨Keys.codeActionsOnSave, t, (ownFixAll snapshot t).1.value, none⟩) ∨
      ∃ t l, (t, l) ∈ optOuts snapshot ∧
        (migrateOptOut ⟨(snapshot.language l).get t, false⟩).changed = true ∧
        c = ⟨Keys.languageCodeActions l, t,
          (migrateOptOut ⟨(snapshot.language l).get t, false⟩).value, some l⟩ := by
  rw [record_changes, List.mem_append, mem_familyChanges]
  simp only [Family.get_ofFn]
  refine or_congr Iff.rfl ?_
  constructor
  · intro listed
    obtain ⟨⟨l, f⟩, recorded, member⟩ := List.mem_flatMap.mp listed
    obtain ⟨t, changed, rfl⟩ := (mem_familyChanges _ _ _ c).mp member
    have element := (section_of_mem_languages recorded).2 t
    by_cases out : (t, l) ∈ optOuts snapshot
    · rw [sectionAfter, if_pos out] at element
      exact ⟨t, l, out, by rwa [← element], by rw [element]⟩
    · rw [sectionAfter, if_neg out] at element
      rw [element] at changed
      cases changed
  · rintro ⟨t, l, out, changed, rfl⟩
    obtain ⟨f, recorded⟩ := mem_languages_of_optOut resource out
    have element := (section_of_mem_languages recorded).2 t
    rw [sectionAfter, if_pos out] at element
    exact List.mem_flatMap.mpr ⟨(l, f), recorded,
      (mem_familyChanges _ _ _ _).mpr ⟨t, by rwa [element], by rw [element]⟩⟩

/-- A write turns the linter's action on in a tier, or off in a tier of a language's section. Each is the
mapping that was read with this one member set. -/
inductive ChangeOf (snapshot : Snapshot) : Change → Prop where
  | turnOn (t : Tier) (m : Members) :
    truthy (snapshot.autoFix.get t) = true → mapping? (snapshot.codeActions.get t) = some m →
      Members.get? m Keys.linterFixAll = none →
        ChangeOf snapshot ⟨Keys.codeActionsOnSave, t,
          some (.obj (Members.insert Keys.linterFixAll (.bool true) m)), none⟩
  | turnOff (t : Tier) (l : String) (m : Members) :
    (t, l) ∈ optOuts snapshot → mapping? ((snapshot.language l).get t) = some m →
      Members.get? m Keys.linterFixAll ≠ some (.bool false) →
        ChangeOf snapshot ⟨Keys.languageCodeActions l, t,
          some (.obj (Members.insert Keys.linterFixAll (.bool false) m)), some l⟩

theorem changeOf_of_mem {c : Change} (member : c ∈ (record snapshot resource).changes) :
    ChangeOf snapshot c := by
  obtain ⟨t, changed, rfl⟩ | ⟨t, l, out, changed, rfl⟩ := (mem_changes_iff c).mp member
  · obtain same | ⟨m, legacy, mapping, unset, made⟩ :=
      migrateAutoFix_cases (snapshot.autoFix.get t) (snapshot.codeActions.get t)
    · rw [ownFixAll, same] at changed
      cases changed
    · rw [ownFixAll, made]
      exact .turnOn t m legacy mapping unset
  · obtain same | ⟨m, mapping, on, made⟩ := migrateOptOut_cases ((snapshot.language l).get t)
    · rw [same] at changed
      cases changed
    · rw [made]
      exact .turnOff t l m out mapping on

/-- Settings are written before sections, and each key broadest tier first. -/
def Change.Before (a b : Change) : Prop :=
  (a.language = none ∨ b.language ≠ none) ∧ (a.key = b.key → b.tier ∉ a.tier.upTo)

theorem familyChanges_pairwise (key : String) (language : Option String) (f : Family) :
    (familyChanges key language f).Pairwise Change.Before := by
  rw [familyChanges, List.pairwise_filterMap]
  have tiers : Tier.all.Pairwise fun t u => u ∉ t.upTo := by decide
  refine tiers.imp fun {t u} narrower a first b second => ?_
  dsimp only at first second
  split at first <;> split at second <;> cases first <;> cases second
  refine ⟨?_, fun _ => narrower⟩
  cases language <;> simp

theorem changes_pairwise (snapshot : Snapshot) (resource : Option Url) :
    (record snapshot resource).changes.Pairwise Change.Before := by
  rw [record_changes, List.pairwise_append]
  refine ⟨familyChanges_pairwise _ _ _, ?_, ?_⟩
  · rw [List.pairwise_flatMap]
    refine ⟨fun p _ => familyChanges_pairwise _ _ _, ?_⟩
    refine (record_tracks snapshot resource).sorted.imp fun {p q} less a first b second => ?_
    obtain ⟨t, _, rfl⟩ := (mem_familyChanges _ _ _ a).mp first
    obtain ⟨u, _, rfl⟩ := (mem_familyChanges _ _ _ b).mp second
    refine ⟨.inr (by simp), fun same => ?_⟩
    exact absurd (languageCodeActions_injective same) less.ne
  · intro a first b second
    obtain ⟨t, _, rfl⟩ := (mem_familyChanges _ _ _ a).mp first
    obtain ⟨p, _, listed⟩ := List.mem_flatMap.mp second
    obtain ⟨u, _, rfl⟩ := (mem_familyChanges _ _ _ b).mp listed
    exact ⟨.inl rfl, fun same => absurd same (languageCodeActions_ne p.1)⟩

/-- Changes of one key are in different tiers. -/
theorem Change.Before.tier_ne {a b : Change} (before : a.Before b) (same : a.key = b.key) :
    a.tier ≠ b.tier := by
  have narrower := before.2 same
  intro equal
  rw [← equal] at narrower
  exact narrower (by cases a.tier <;> simp [Tier.upTo])

theorem ChangeOf.segments_ne_nil {c : Change} (change : ChangeOf snapshot c) :
    KeyPath.segments c.key ≠ [] := by
  cases change with
  | turnOn =>
    rw [segments_codeActionsOnSave]
    exact List.cons_ne_nil _ _
  | turnOff t l =>
    rw [Keys.languageCodeActions, KeyPath.segments_append, segments_codeActionsOnSave]
    exact List.append_ne_nil_of_right_ne_nil _ (List.cons_ne_nil _ _)

/-- A mapping is written, whatever is held by then. -/
theorem ChangeOf.toWrite_value {c : Change} (change : ChangeOf snapshot c) (current : Scoped Json) :
    ∃ m, (c.toWrite resource current).value = some (.obj m) := by
  cases change with
  | turnOn => exact ⟨_, rfl⟩
  | turnOff t l m =>
    obtain ⟨n, overlaid, _⟩ := overlay_obj (current.get t) (Members.insert Keys.linterFixAll (.bool false) m)
    exact ⟨n, overlaid⟩

/-- The linter's own settings are no part of what is written, nor the other way round. -/
theorem ChangeOf.apart_linter {c : Change} (change : ChangeOf snapshot c) (path : List String) :
    KeyPath.Apart (KeyPath.segments c.key) ("eslint" :: path) := by
  cases change with
  | turnOn =>
    rw [segments_codeActionsOnSave]
    exact KeyPath.apart_of_head_ne _ _ (by decide)
  | turnOff t l m =>
    have bracket : (Keys.languageCodeActions l).toList.head? = some '[' := by
      rw [languageCodeActions_toList]
      rfl
    obtain ⟨piece, more, segments⟩ := KeyPath.segments_head bracket (by decide)
    rw [segments]
    refine KeyPath.apart_of_head_ne _ _ fun same => ?_
    have texts := congrArg String.toList same
    simp at texts

section Plain

variable (plain : ∀ t l, (t, l) ∈ optOuts snapshot → '.' ∉ l.toList)

include plain

theorem ChangeOf.apart {a b : Change} (first : ChangeOf snapshot a) (second : ChangeOf snapshot b)
    (different : a.key ≠ b.key) : KeyPath.Apart (KeyPath.segments a.key) (KeyPath.segments b.key) := by
  cases first with
  | turnOn =>
    cases second with
    | turnOn => exact absurd rfl different
    | turnOff u l n out => exact apart_languageCodeActions (plain u l out)
  | turnOff t l m out =>
    cases second with
    | turnOn => exact (apart_languageCodeActions (plain t l out)).symm
    | turnOff u l' n out' =>
      refine apart_languages (plain t l out) (plain u l' out') fun same => different ?_
      rw [same]

end Plain

end LinterClient.Migration
