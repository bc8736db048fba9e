import LinterClient.Proofs.LanguageSections
import LinterClient.Proofs.Migration.Cascade
import LinterClient.Proofs.Migration.Convergence

/-!
Whether an opt-out is one for the lookup, too.

A record that turns fixing off for a language becomes an entry of a mapping. A section that holds no
mapping is left as it is, and what the lookup makes of it does not change.
-/

namespace LinterClient

namespace Migration

open Json (Members)
open Settings

/-- Whether the lookup takes a value for one that fixes nothing. -/
def isDisabled (v : Option Json) : Bool :=
  v.bind FixOnSave.enabled? = some false

theorem isMapping_of_isDisabled {v : Option Json} (disabled : isDisabled v = true) : IsMapping v := by
  rcases v with _ | _ | _ | _ | _ | ids | _
  case some.arr =>
    simp only [isDisabled, Option.bind_some, FixOnSave.enabled?] at disabled
    split at disabled <;> cases disabled
  all_goals trivial

theorem isDisabled_of_off {v : Option Json} (off : member? v Keys.linterFixAll = some (.bool false)) :
    isDisabled v = true := by
  rcases v with _ | _ | _ | _ | _ | _ | m
  case some.obj =>
    have found : Members.get? m Keys.linterFixAll = some (.bool false) := off
    simp [isDisabled, FixOnSave.enabled?, found, actionFlag]
  all_goals cases off

/-- A write below a value leaves it a mapping, and leaves the actions in it alone: their names have dots
and a segment of a path has none. -/
theorem isDisabled_assign_below (root : Members) (value : Json) {path : List String} {segment : String}
    (rest : List String) (filled : path ≠ []) (plain : '.' ∉ segment.toList) :
    isDisabled (KeyPath.lookup (KeyPath.assign root value (path ++ segment :: rest)) path) =
      isDisabled (KeyPath.lookup root path) := by
  have linter : Keys.linterFixAll ≠ segment := by
    rintro rfl
    exact plain (by decide)
  have generic : Keys.fixAll ≠ segment := by
    rintro rfl
    exact plain (by decide)
  have kept (m : Members) : FixOnSave.enabled? (.obj (KeyPath.assign m value (segment :: rest))) =
      FixOnSave.enabled? (.obj m) := by
    simp only [FixOnSave.enabled?, KeyPath.get?_assign_of_ne m value rest linter,
      KeyPath.get?_assign_of_ne m value rest generic]
  rw [KeyPath.lookup_assign_above root value filled (List.cons_ne_nil _ _), isDisabled, Option.bind_some,
    kept]
  cases found : KeyPath.lookup root path with
  | none => rfl
  | some v =>
    cases v with
    | obj => rfl
    | arr ids =>
      have list : isDisabled (some (.arr ids)) = false :=
        Bool.eq_false_iff.mpr (isMapping_of_isDisabled ·)
      rw [list]
      rfl
    | _ => rfl

/-- A change keeps away from the section of a language, or it is the one for it, or it is one for a
section below it. -/
theorem ChangeOf.section_cases {snapshot : Snapshot} {c : Change} (change : ChangeOf snapshot c) {l : String}
    (plain : '.' ∉ l.toList) :
    KeyPath.Apart (KeyPath.segments c.key) (overridePath l) ∨ c.key = Keys.languageCodeActions l ∨
      ∃ segment rest, KeyPath.segments c.key = overridePath l ++ segment :: rest := by
  cases change with
  | turnOn => exact .inl (apart_languageCodeActions plain)
  | turnOff t l' =>
    refine or_iff_not_imp_left.mpr fun meets => ?_
    obtain same | ⟨rest, below⟩ | above := (override_apart_iff l' l).mp meets |>.imp_right Or.symm
    · refine .inl (congrArg Keys.languageCodeActions (Classical.byContradiction fun different => plain ?_))
      exact (exists_same_path_iff l).mp ⟨l', different, (overridePath_eq_iff l' l).mpr same⟩
    · have path : KeyPath.segments (Keys.languageCodeActions l') =
          overridePath l ++ (rest ++ ["editor", "codeActionsOnSave"]) := by
        rw [← List.append_assoc, below]
        exact overridePath_eq l'
      obtain ⟨segment, more, longer⟩ := List.exists_cons_of_ne_nil
        (List.append_ne_nil_of_right_ne_nil rest (List.cons_ne_nil "editor" ["codeActionsOnSave"]))
      exact .inr ⟨segment, more, path.trans (congrArg (overridePath l ++ ·) longer)⟩
    · rw [sectionPath_of_no_dot plain, overridePath_eq] at above
      have length := above.length_le
      simp at length

/-- An opt-out that is written turns the linter's action off, whatever is held by then. -/
theorem ChangeOf.isDisabled_written {snapshot : Snapshot} {c : Change} (change : ChangeOf snapshot c)
    {l : String} (own : c.key = Keys.languageCodeActions l) (resource : Option Url) (current : Scoped Json) :
    isDisabled (c.toWrite resource current).value = true := by
  cases change with
  | turnOn => exact absurd own (languageCodeActions_ne l)
  | turnOff t l' m =>
    obtain ⟨n, overlaid, found⟩ :=
      overlay_obj (current.get t) (Members.insert Keys.linterFixAll (.bool false) m)
    have off : Members.get? n Keys.linterFixAll = some (.bool false) := by
      rw [found, Members.get?_insert_self, Option.some_or]
    exact (congrArg isDisabled overlaid).trans (isDisabled_of_off off)

end Migration

namespace Session

open Migration
open Program (Turn)
open Settings

variable {σ : Type} [Store σ] [LawfulStore σ] [ObjectStore σ] [AssigningStore σ]
variable {resource : Option Url} {snapshot : Snapshot} {l : String}

/-- After a change was written, a language is opted out in a tier if it was before, or if the change is
the one for it. -/
theorem isDisabled_after {t : Turn (Session σ) Wait} {c : Change} (attempts : t.Attempts resource c)
    (written : t.result = .ok ()) (change : ChangeOf snapshot c) (plain : '.' ∉ l.toList) (u : Tier) :
    isDisabled (held t.after.store resource (Keys.languageCodeActions l) u) = true ↔
      (c.key = Keys.languageCodeActions l ∧ c.tier = u) ∨
        isDisabled (held t.found.store resource (Keys.languageCodeActions l) u) = true := by
  by_cases tier : c.tier = u
  -- in the tier of the change, its key may be elsewhere, that of the section, or one below it
  · subst tier
    obtain ⟨m, given⟩ := change.toWrite_value (Store.inspect t.left.store c.key resource)
    have stored := written
    rw [result_eq attempts] at stored
    obtain apart | own | ⟨segment, rest, below⟩ := change.section_cases plain
    · have kept := inspect_after attempts (Keys.languageCodeActions l) resource c.tier
        fun _ reaches => reaches.2.2 apart
      have other : c.key ≠ Keys.languageCodeActions l := apart.ne
      simp [held, kept, other]
    · have holds : held t.after.store resource c.key c.tier = some (.obj m) := by
        rw [held, after_store attempts]
        exact LawfulStore.inspect_written _ _ _ stored given change.segments_ne_nil
      have disabled := change.isDisabled_written own resource (Store.inspect t.left.store c.key resource)
      rw [given] at disabled
      simp [← own, holds, disabled]
    · have other : c.key ≠ Keys.languageCodeActions l := by
        intro same
        rw [same] at below
        exact absurd (List.self_eq_append_right.mp below) (List.cons_ne_nil _ _)
      have noDot : '.' ∉ segment.toList := by
        have inside : segment ∈ KeyPath.segments c.key := by simp [below]
        exact KeyPath.no_dot_of_mem_segments inside
      have content : ObjectStore.content t.after.store resource c.tier =
          KeyPath.assign (ObjectStore.content t.found.store resource c.tier) (.obj m)
            (overridePath l ++ segment :: rest) := by
        rw [after_store attempts, ← below]
        exact AssigningStore.content_written _ _ _ stored given
      have kept := isDisabled_assign_below (ObjectStore.content t.found.store resource c.tier) (.obj m) rest
        (show overridePath l ≠ [] by simp [overridePath_eq]) noDot
      simp only [held, ObjectStore.inspect_get, other, false_and, false_or, content]
      exact Bool.eq_iff_iff.mp kept
  · have kept := inspect_after attempts (Keys.languageCodeActions l) resource u
      fun _ reaches => tier reaches.1.symm
    simp [held, kept, tier]

/-- After all writes, a language is opted out in a tier if it was before them, or if one of them was for
it. -/
theorem Wrote.isDisabled_iff {changes : List Change} {s last : Session σ}
    {turns : List (Turn (Session σ) Wait)} (wrote : Wrote resource changes s turns last)
    (quiet : Quiet turns) (written : ∀ t ∈ turns, t.result = .ok ())
    (change : ∀ c ∈ changes, ChangeOf snapshot c) (plain : '.' ∉ l.toList) (u : Tier) :
    isDisabled (held last.store resource (Keys.languageCodeActions l) u) = true ↔
      (∃ c ∈ changes, c.key = Keys.languageCodeActions l ∧ c.tier = u) ∨
        isDisabled (held s.store resource (Keys.languageCodeActions l) u) = true := by
  -- each turn finds the store as the one before left it, since nobody else writes
  induction turns generalizing changes s with
  | nil =>
    obtain ⟨rfl, rfl⟩ := wrote.of_nil
    simp
  | cons t turns ih =>
    obtain ⟨c, rest, rfl, attempts, left, later⟩ := wrote.of_cons
    have found : t.found.store = s.store := (quiet t (by simp)).trans (congrArg Session.store left)
    have here := isDisabled_after attempts (written t (by simp)) (change c (by simp)) plain u
    rw [ih later (fun t member => quiet t (by simp [member])) (fun t member => written t (by simp [member]))
      fun c member => change c (by simp [member]), here, found]
    simp only [List.exists_mem_cons_iff]
    exact or_assoc.symm.trans (or_congr_left or_comm)

omit [LawfulStore σ] [ObjectStore σ] [AssigningStore σ] in
/-- An opt-out is written for a mapping that is none yet. -/
theorem exists_change_iff (s : σ) {t : Tier} (out : (t, l) ∈ optOuts (Snapshot.take s resource)) :
    (∃ c ∈ (record (Snapshot.take s resource) resource).changes,
      c.key = Keys.languageCodeActions l ∧ c.tier = t) ↔
      IsMapping (held s resource (Keys.languageCodeActions l) t) ∧
        member? (held s resource (Keys.languageCodeActions l) t) Keys.linterFixAll ≠ some (.bool false) := by
  rw [← migrateOptOut_exact]
  constructor
  · rintro ⟨c, member, key, tier⟩
    obtain ⟨u, _, rfl⟩ | ⟨u, l', _, changed, rfl⟩ := (mem_changes_iff c).mp member
    · exact absurd key (languageCodeActions_ne l)
    · obtain rfl := languageCodeActions_injective key
      obtain rfl : u = t := tier
      exact changed
  · intro changed
    exact ⟨_, (mem_changes_iff _).mpr (.inr ⟨t, l, out, changed, rfl⟩), rfl, rfl⟩

/-- After an update that nobody disturbs and that succeeds, the lookup takes a language that is opted out
for one in which nothing is fixed, if and only if its section held a mapping, or nothing. -/
theorem optOut_effective (s : Session σ) (others : Nat → Session σ → Session σ) {t : Tier}
    (plain : '.' ∉ l.toList) :
    let r := record (Snapshot.take s.store resource) resource
    let run := (update r).amid others s
    Quiet run.turns → run.value = [] → r.fixAll t = true → Lists l (held s.store resource Keys.validate t) →
      (isDisabled (held run.final.store resource (Keys.languageCodeActions l) t) = true ↔
        IsMapping (held s.store resource (Keys.languageCodeActions l) t)) := by
  intro r run quiet answer fixes lists
  have out : (t, l) ∈ optOuts (Snapshot.take s.store resource) :=
    (mem_optOuts_take s.store resource t l).mpr ⟨(record_fixAll_iff s.store resource t).mp fixes, lists⟩
  have wrote := writeChanges_wrote resource r.changes others s
  have value := writeChanges_value resource r.changes others s
  simp only [run, update_amid] at quiet answer ⊢
  have written := wrote.failures_eq_nil_iff.mp (value.symm.trans answer)
  have decided := wrote.isDisabled_iff quiet written (fun c member => changeOf_of_mem member) plain t
  rw [exists_change_iff s.store out] at decided
  rw [runPending_store]
  refine decided.trans ⟨?_, fun mapping => ?_⟩
  · rintro (⟨mapping, -⟩ | disabled)
    · exact mapping
    · exact isMapping_of_isDisabled disabled
  · by_cases off : member? (held s.store resource (Keys.languageCodeActions l) t) Keys.linterFixAll =
        some (.bool false)
    · exact .inr (isDisabled_of_off off)
    · exact .inl ⟨mapping, off⟩

/-- Beside the legacy flag and the opt-out, the section of the language holds a list with the linter's
action. -/
def listedStore : MemoryStore :=
  (Store.write legacyStore ⟨Keys.languageCodeActions "html", some (.arr [.str Keys.linterFixAll]), .global,
    none⟩).2

def listedSession : Session MemoryStore :=
  .new listedStore .inMemory none (fun _ => .error .noLaunch) 0

/-- The opt-out is one for the lookup if the section is empty, and is none if it holds a list: there
everything is still fixed. -/
theorem optOut_effective_list :
    let after (s : Session MemoryStore) := held
      ((update (record (Snapshot.take s.store none) none)).amid (fun _ s => s) s).final.store none
      (Keys.languageCodeActions "html") .global
    isDisabled (after legacySession) = true ∧ isDisabled (after listedSession) ≠ true ∧
      isEnabled (after listedSession) = true := by
  intro after
  have plain : '.' ∉ "html".toList := by decide
  have decided (s : Session MemoryStore) :=
    @optOut_effective MemoryStore _ _ _ _ none "html" s (fun _ s => s) .global plain
      (quiet_amid (fun _ _ => rfl) _ _)
  refine ⟨?_, fun disabled => ?_, by decide +kernel⟩
  · exact (decided legacySession (by decide +kernel) (by decide +kernel) (by decide +kernel)).mpr
      (by decide +kernel)
  · have mapping : IsMapping (held listedStore none (Keys.languageCodeActions "html") .global) :=
      (decided listedSession (by decide +kernel) (by decide +kernel) (by decide +kernel)).mp disabled
    exact absurd mapping (by decide +kernel)

end Session

end LinterClient
