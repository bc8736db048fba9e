import LinterClient.Proofs.Migration.Convergence
import LinterClient.Proofs.Migration.Recording
import LinterClient.Proofs.Settings.Entries

/-!
Opt-outs as they are scanned, and as the settings are read.

A migration looks into the records of the list itself: it wants a language that is a text, and a flag that is
off. Reading such a record looks at more: each of its members is checked, and the flag may be missing or `null`.
Both come to the same languages, in the same order.
-/

namespace LinterClient

namespace Settings.ValidateEntry

open LinterClient.Json

theorem disablesAutoFix_iff {e : ValidateEntry} : e.disablesAutoFix = true ↔ ∃ name, e = .item name (some false) := by
  unfold disablesAutoFix
  split
  · exact iff_of_true rfl ⟨_, rfl⟩
  · rename_i other
    exact iff_of_false Bool.false_ne_true fun ⟨name, same⟩ => other name same

theorem build_itemFields {m : Members} {name : String} {autoFix : Option Bool} :
    itemFields.build m = .ok (.item name autoFix) ↔
      m.get? "language" = some (.str name) ∧ (Fields.optional "autoFix" .bool).build m = .ok autoFix := by
  rw [itemFields, build_textAnd]
  constructor
  · rintro ⟨s, b, text, flag, same⟩
    obtain ⟨rfl, rfl⟩ := item.inj same
    exact ⟨text, flag⟩
  · rintro ⟨text, flag⟩
    exact ⟨name, autoFix, text, flag, rfl⟩

theorem ofJson_obj_eq_item {m : Members} (ordered : m.Ordered) {name : String} {autoFix : Option Bool} :
    ofJson (.obj m) = .item name autoFix ↔
      m.get? "language" = some (.str name) ∧ (Fields.optional "autoFix" .bool).build m = .ok autoFix := by
  have checks : itemFields.Checks := checks_textAnd (Fields.checks_optional _ _)
  have read : itemFields.decodeObject "ValidateEntry" (.obj m) = .ok (.item name autoFix) ↔
      itemFields.build m = .ok (.item name autoFix) := Fields.decodeObject_eq_ok_iff checks ordered
  rw [← build_itemFields, ← read]
  simp only [ofJson, Decoder.string]
  cases itemFields.decodeObject "ValidateEntry" (.obj m) <;> simp

/-- A value is read as a record that turns fixing off just if it has the language and the flag for it. -/
theorem ofJson_eq_off_iff {v : Json} (sorted : v.sorted = v) {name : String} :
    ofJson v = .item name (some false) ↔
      v.get? "language" = some (.str name) ∧ v.get? "autoFix" = some (.bool false) := by
  cases v with
  | obj m =>
    rw [ofJson_obj_eq_item (ordered_of_sorted_obj sorted).1, build_optionalFlag]
    simp [Json.get?]
  | _ => simp [ofJson, Decoder.string, Fields.decodeObject, Json.get?]

end Settings.ValidateEntry

namespace Migration

open Json (Members)
open Settings

theorem isOptOut_iff {l : String} {entry : Json} (sorted : entry.sorted = entry) :
    IsOptOut l entry ↔ ValidateEntry.ofJson entry = .item l (some false) :=
  (ValidateEntry.ofJson_eq_off_iff sorted).symm

theorem optedOutLanguages_cons (entry : Json) (rest : List Json) :
    optedOutLanguages (some (.arr (entry :: rest))) =
      optedOutLanguages (some (.arr [entry])) ++ optedOutLanguages (some (.arr rest)) := by
  simp only [optedOutLanguages]
  rw [← List.filterMap_append, List.singleton_append]

theorem optedOutLanguages_of_isOptOut {l : String} {entry : Json} (out : IsOptOut l entry) :
    optedOutLanguages (some (.arr [entry])) = [l] := by
  cases entry with
  | obj m =>
    have language : Members.get? m "language" = some (.str l) := out.1
    have off : Members.get? m "autoFix" = some (.bool false) := out.2
    simp [optedOutLanguages, language, off, Json.asString?]
  | _ => cases out.1

theorem optedOutLanguages_of_not_isOptOut {entry : Json} (other : ∀ l, ¬ IsOptOut l entry) :
    optedOutLanguages (some (.arr [entry])) = [] := by
  refine List.eq_nil_iff_forall_not_mem.mpr fun l scanned => ?_
  obtain ⟨_, listed, out⟩ := (mem_optedOutLanguages _ l).mp scanned
  rw [List.mem_singleton.mp listed] at out
  exact other l out

/-- The languages that are scanned are those of the entries that turn fixing off, in order; each of these
entries has one. -/
theorem optedOutLanguages_eq {entries : List Json} (sorted : ∀ entry ∈ entries, entry.sorted = entry) :
    (optedOutLanguages (some (.arr entries))).map some =
      ((entries.map ValidateEntry.ofJson).filter (·.disablesAutoFix)).map (·.language?) := by
  induction entries with
  | nil => rfl
  | cons entry rest ih =>
    obtain ⟨own, others⟩ := List.forall_mem_cons.mp sorted
    rw [List.map_cons]
    by_cases off : (ValidateEntry.ofJson entry).disablesAutoFix = true
    · obtain ⟨l, item⟩ := ValidateEntry.disablesAutoFix_iff.mp off
      have scanned := optedOutLanguages_of_isOptOut ((isOptOut_iff own).mpr item)
      rw [optedOutLanguages_cons, scanned, List.map_append, ih others, List.filter_cons_of_pos off, item]
      rfl
    · have other (l : String) : ¬ IsOptOut l entry :=
        fun out => off (ValidateEntry.disablesAutoFix_iff.mpr ⟨l, (isOptOut_iff own).mp out⟩)
      rw [optedOutLanguages_cons, optedOutLanguages_of_not_isOptOut other, List.nil_append, ih others,
        List.filter_cons_of_neg off]

/-- In a tier that fixes everything, the languages that are scanned in its list are those of the entries that
are read as turning fixing off, in order and as often. Just these languages are opted out in the tier: their
sections are migrated and all others stay, and a section is written if it was a mapping, or nothing, and was
not opted out before. Objects are taken to be maps in the order of their keys. -/
theorem optOuts_decoded {σ : Type} [Store σ] (s : σ) (resource : Option Url) {t : Tier} {entries : List Json}
    (stored : held s resource Keys.validate t = some (.arr entries))
    (sorted : (Json.arr entries).sorted = .arr entries) :
    let r := record (Snapshot.take s resource) resource
    let off := ((entries.map ValidateEntry.ofJson).filter (·.disablesAutoFix)).map (·.language?)
    let actions := fun l => held s resource (Keys.languageCodeActions l) t
    r.fixAll t = true →
      (optedOutLanguages (held s resource Keys.validate t)).map some = off ∧
      (∀ l, some l ∈ off → ∃ f, (l, f) ∈ r.languages) ∧
      (∀ l f, (l, f) ∈ r.languages →
        f.get t = if some l ∈ off then migrateOptOut ⟨actions l, false⟩ else ⟨actions l, false⟩) ∧
      (∀ l, (∃ c ∈ r.changes, c.language = some l ∧ c.tier = t) ↔
        some l ∈ off ∧ IsMapping (actions l) ∧ member? (actions l) Keys.linterFixAll ≠ some (.bool false)) := by
  intro r off actions fixes
  have scanned : (optedOutLanguages (held s resource Keys.validate t)).map some = off := by
    rw [stored]
    exact optedOutLanguages_eq ((Json.sorted_arr_iff entries).mp sorted)
  have out (l : String) : (t, l) ∈ optOuts (Snapshot.take s resource) ↔ some l ∈ off := by
    rw [mem_optOuts, ← scanned, List.mem_map_of_injective fun _ _ => Option.some.inj]
    exact and_iff_right fixes
  refine ⟨scanned, fun l turned => mem_languages_of_optOut resource ((out l).mpr turned), ?_, fun l => ?_⟩
  · intro l f recorded
    rw [(section_of_mem_languages recorded).2 t, sectionAfter]
    exact if_congr (out l) rfl rfl
  · rw [← out, ← migrateOptOut_exact]
    constructor
    · rintro ⟨c, member, language, tier⟩
      obtain ⟨u, -, rfl⟩ | ⟨u, l', opted, changed, rfl⟩ := (mem_changes_iff c).mp member
      · cases language
      · cases language
        cases tier
        exact ⟨opted, changed⟩
    · rintro ⟨opted, changed⟩
      exact ⟨_, (mem_changes_iff _).mpr (.inr ⟨t, l, opted, changed, rfl⟩), rfl, rfl⟩

/-- Entries of many kinds. Two of them turn fixing off, both for the same language and one with a further
member; the others have no language or no flag that is off. -/
def mixedEntries : List Json :=
  [.str "html", .obj [("autoFix", .bool false), ("language", .str "html")],
    .obj [("autoFix", .null), ("language", .str "vue")], .obj [("autoFix", .str "false"), ("language", .str "vue")],
    .obj [("autoFix", .bool false), ("language", .null)],
    .arr [.obj [("autoFix", .bool false), ("language", .str "vue")]],
    .obj [("autoFix", .bool false), ("language", .str "html"), ("severity", .str "warn")]]

/-- The legacy flag is set beside these entries. -/
def mixedStore : MemoryStore :=
  (Store.write Session.legacyStore ⟨Keys.validate, some (.arr mixedEntries), .global, none⟩).2

theorem optOuts_decoded_mixed :
    let r := record (Snapshot.take mixedStore none) none
    r.fixAll .global = true ∧
      (optedOutLanguages (held mixedStore none Keys.validate .global)).map some = [some "html", some "html"] ∧
      (∃ c ∈ r.changes, c.language = some "html" ∧ c.tier = .global) ∧
      ¬ ∃ c ∈ r.changes, c.language = some "vue" ∧ c.tier = .global := by
  intro r
  have fixes : r.fixAll .global = true := by decide +kernel
  have stored : held mixedStore none Keys.validate .global = some (.arr mixedEntries) := by decide +kernel
  have sorted : (Json.arr mixedEntries).sorted = .arr mixedEntries := by decide +kernel
  have read : ((mixedEntries.map ValidateEntry.ofJson).filter (·.disablesAutoFix)).map (·.language?) =
      [some "html", some "html"] := by decide +kernel
  obtain ⟨scanned, -, -, written⟩ := optOuts_decoded mixedStore none stored sorted fixes
  rw [read] at scanned written
  refine ⟨fixes, scanned, (written "html").mpr ⟨by simp, by decide +kernel⟩, fun vue => ?_⟩
  exact absurd ((written "vue").mp vue).1 (by simp)

end Migration

end LinterClient
