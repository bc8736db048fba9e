import LinterClient.FixOnSave
import LinterClient.Proofs.Migration.Changes
import LinterClient.Proofs.Store.Objects

/-!
Where the code actions of a language are kept.

The key of a language puts its name between brackets in front of a path, and a path is split at every
dot, also inside the brackets. So the section of a language is the member that is named for it only if the
name has no dot.
-/

namespace LinterClient

namespace Migration

open Json (Members)
open Settings

def sectionPath (l : String) : List String :=
  KeyPath.segments (Keys.languageSection l)

def overridePath (l : String) : List String :=
  KeyPath.segments (Keys.languageCodeActions l)

/-- The path to the code actions in the member that is named for a language. -/
def namedPath (l : String) : List String :=
  [Keys.languageSection l, "editor", "codeActionsOnSave"]

theorem overridePath_eq (l : String) :
    overridePath l = sectionPath l ++ ["editor", "codeActionsOnSave"] := by
  rw [overridePath, Keys.languageCodeActions, KeyPath.segments_append, segments_codeActionsOnSave]
  rfl

theorem sectionPath_of_no_dot {l : String} (plain : '.' ∉ l.toList) :
    sectionPath l = [Keys.languageSection l] := by
  refine KeyPath.segments_of_no_dot (by simpa [Keys.languageSection] using plain) ?_
  exact (languageSection_ne l (by simp)).symm

/-- A name with a dot is torn apart there. -/
theorem sectionPath_of_dot (a b : String) :
    sectionPath (a ++ "." ++ b) = KeyPath.segments ("[" ++ a) ++ KeyPath.segments (b ++ "]") := by
  rw [sectionPath, ← KeyPath.segments_append]
  simp only [Keys.languageSection, String.append_assoc]

theorem exists_dot {l : String} (dot : '.' ∈ l.toList) : ∃ a b, l = a ++ "." ++ b := by
  obtain ⟨a, b, split⟩ := List.append_of_mem dot
  refine ⟨String.ofList a, String.ofList b, String.toList_inj.mp ?_⟩
  simp [split]

theorem length_sectionPath_of_dot {l : String} (dot : '.' ∈ l.toList) : 2 ≤ (sectionPath l).length := by
  obtain ⟨a, b, rfl⟩ := exists_dot dot
  have before : KeyPath.segments ("[" ++ a) ≠ [] :=
    KeyPath.segments_ne_nil (c := '[') (by simp) (by decide)
  have behind : KeyPath.segments (b ++ "]") ≠ [] :=
    KeyPath.segments_ne_nil (c := ']') (by simp) (by decide)
  have first := List.length_pos_iff.mpr before
  have second := List.length_pos_iff.mpr behind
  rw [sectionPath_of_dot, List.length_append]
  omega

theorem overridePath_eq_namedPath_iff (l : String) : overridePath l = namedPath l ↔ '.' ∉ l.toList := by
  constructor
  · intro same dot
    have long := length_sectionPath_of_dot dot
    have length := congrArg List.length same
    rw [overridePath_eq, List.length_append, namedPath] at length
    simp only [List.length_cons, List.length_nil] at length
    omega
  · intro plain
    rw [overridePath_eq, sectionPath_of_no_dot plain]
    rfl

theorem overridePath_eq_iff (l l' : String) : overridePath l = overridePath l' ↔ sectionPath l = sectionPath l' := by
  rw [overridePath_eq, overridePath_eq, List.append_cancel_right_eq]

/-- Only names with dots share a path: one dot more at the same place makes no difference. -/
theorem exists_same_path_iff (l : String) :
    (∃ l', l' ≠ l ∧ overridePath l' = overridePath l) ↔ '.' ∈ l.toList := by
  simp only [overridePath_eq_iff]
  constructor
  · rintro ⟨l', different, same⟩
    refine Classical.byContradiction fun plain => ?_
    have plain' : '.' ∉ l'.toList := by
      intro dot
      have long := length_sectionPath_of_dot dot
      rw [same, sectionPath_of_no_dot plain] at long
      simp at long
    rw [sectionPath_of_no_dot plain, sectionPath_of_no_dot plain', List.singleton_inj] at same
    exact different (languageSection_injective same)
  · intro dot
    -- the second dot adds an empty segment, which is dropped
    obtain ⟨a, b, rfl⟩ := exists_dot dot
    refine ⟨a ++ "." ++ ("." ++ b), fun same => ?_, ?_⟩
    · have length := congrArg String.length same
      simp only [String.length_append] at length
      have one : String.length "." = 1 := by decide
      omega
    · have empty : KeyPath.segments ("." ++ b ++ "]") = KeyPath.segments (b ++ "]") := by
        have joined := KeyPath.segments_append "" (b ++ "]")
        rw [String.empty_append, ← String.append_assoc] at joined
        rw [joined]
        rfl
      rw [sectionPath_of_dot, sectionPath_of_dot, empty]

/-- No path goes on from another one by its own end, or by one segment and its own end. -/
theorem override_prefix_iff (p q : List String) :
    p ++ ["editor", "codeActionsOnSave"] <+: q ++ ["editor", "codeActionsOnSave"] ↔
      p = q ∨ p ++ ["editor", "codeActionsOnSave"] <+: q := by
  constructor
  · rintro ⟨rest, whole⟩
    obtain ⟨more, longer, -⟩ | ⟨more, shorter, ended⟩ := List.append_eq_append_iff.mp whole
    · exact .inr ⟨more, longer.symm⟩
    · rcases more with _ | ⟨first, _ | ⟨second, more⟩⟩
      · exact .inr ⟨[], by simpa using shorter⟩
      · obtain rfl : "editor" = first := (List.cons.inj ended).1
        have last := congrArg List.getLast? shorter
        simp at last
      · rw [List.cons_append, List.cons_append, List.cons.injEq, List.cons.injEq] at ended
        obtain ⟨rfl, rfl, nothing⟩ := ended
        obtain ⟨rfl, -⟩ := List.append_eq_nil_iff.mp nothing.symm
        exact .inl (List.append_cancel_right shorter)
  · rintro (rfl | inside)
    · exact List.prefix_rfl
    · exact inside.trans (List.prefix_append _ _)

/-- Two languages meet if they have the same section, or if the section of one lies inside the code actions
of the other. -/
theorem override_apart_iff (l l' : String) :
    ¬ KeyPath.Apart (overridePath l) (overridePath l') ↔
      sectionPath l = sectionPath l' ∨ overridePath l <+: sectionPath l' ∨
        overridePath l' <+: sectionPath l := by
  rw [KeyPath.Apart, ← not_or, not_not, overridePath_eq, overridePath_eq, override_prefix_iff,
    override_prefix_iff, @eq_comm _ (sectionPath l') (sectionPath l), or_or_or_comm, or_self]

/-- Languages without dots in their names are apart. -/
theorem override_apart_of_no_dot {l l' : String} (plain : '.' ∉ l.toList) (plain' : '.' ∉ l'.toList) :
    KeyPath.Apart (overridePath l) (overridePath l') ↔ l ≠ l' := by
  rw [← not_iff_not, not_not, override_apart_iff, overridePath_eq, overridePath_eq,
    sectionPath_of_no_dot plain, sectionPath_of_no_dot plain', List.singleton_inj]
  constructor
  · rintro (same | ⟨rest, longer⟩ | ⟨rest, longer⟩)
    · exact languageSection_injective same
    all_goals
      have length := congrArg List.length longer
      simp at length
  · rintro rfl
    exact .inl rfl

theorem defaultValue_languageCodeActions (l : String) :
    Settings.defaultValue (Keys.languageCodeActions l) = none := by
  have others : ∀ p ∈ Settings.defaults, p.1.toList.head? ≠ some '[' := by decide
  refine List.lookup_eq_none_iff.mpr fun p listed => ?_
  refine bne_iff_ne.mpr fun same => others p listed ?_
  rw [← same, languageCodeActions_toList]
  rfl

/-- Only a name without dots is found in the member that is named for it, whatever a tier holds. -/
theorem lookup_override_iff (l : String) :
    (∀ root : Members, KeyPath.lookup root (overridePath l) = KeyPath.lookup root (namedPath l)) ↔
      '.' ∉ l.toList := by
  constructor
  · intro found dot
    -- a value that is put into the named member is missed
    let root := KeyPath.assign [] (.bool true) (namedPath l)
    have named : KeyPath.lookup root (namedPath l) = some (.bool true) :=
      KeyPath.lookup_assign_self _ _ (List.cons_ne_nil _ _)
    obtain ⟨first, rest, path⟩ := List.exists_cons_of_ne_nil
      (show overridePath l ≠ [] by simp [overridePath_eq])
    have other : Keys.languageSection l ≠ first := by
      rintro rfl
      have inside : Keys.languageSection l ∈ overridePath l := by simp [path]
      exact KeyPath.no_dot_of_mem_segments inside (by simp [Keys.languageSection, dot])
    have missed : KeyPath.lookup root (overridePath l) = none := by
      have apart : KeyPath.Apart (namedPath l) (overridePath l) := by
        rw [path]
        exact KeyPath.apart_of_head_ne _ _ other
      exact (KeyPath.lookup_assign_of_apart _ _ apart).trans (KeyPath.lookup_nil _)
    rw [found, named] at missed
    cases missed
  · intro plain root
    rw [(overridePath_eq_namedPath_iff l).mpr plain]

section Addresses

variable {σ : Type} [Store σ] [ObjectStore σ]

/-- What each tier holds at a path, seen from a resource. -/
def heldAt (s : σ) (resource : Option Url) (path : List String) : Scoped Json :=
  .ofFn fun t => KeyPath.lookup (ObjectStore.content s resource t) path

theorem inspect_eq_heldAt (s : σ) (key : String) (resource : Option Url) :
    Store.inspect s key resource = heldAt s resource (KeyPath.segments key) := by
  refine Scoped.ext_get fun t => ?_
  rw [heldAt, Scoped.get_ofFn]
  exact ObjectStore.inspect_get s key resource t

/-- How the code actions of a language are addressed: what a migration records and what a lookup for a
document reads, which member that is, and which languages meet. -/
structure Addressed (σ : Type) [Store σ] [ObjectStore σ] (l : String) : Prop where
  recorded (s : σ) (resource : Option Url) :
    (Snapshot.take s resource).language l = heldAt s resource (overridePath l)
  effective (s : σ) (resource : Option Url) :
    Store.get s (Keys.languageCodeActions l) resource = (heldAt s resource (overridePath l)).effective
  named : overridePath l = namedPath l ↔ '.' ∉ l.toList
  content : (∀ root : Members, KeyPath.lookup root (overridePath l) = KeyPath.lookup root (namedPath l)) ↔
    '.' ∉ l.toList
  shared : (∃ l', l' ≠ l ∧ overridePath l' = overridePath l) ↔ '.' ∈ l.toList
  meets (l' : String) : ¬ KeyPath.Apart (overridePath l) (overridePath l') ↔
    sectionPath l = sectionPath l' ∨ overridePath l <+: sectionPath l' ∨ overridePath l' <+: sectionPath l
  apart (l' : String) : '.' ∉ l.toList → '.' ∉ l'.toList →
    (KeyPath.Apart (overridePath l) (overridePath l') ↔ l ≠ l')

/-- The code actions of a language are those in the member that is named for it iff its name has no dot.
Names without dots are apart from each other, and each one with a dot shares its section with another. -/
theorem language_addressed (l : String) : Addressed σ l where
  recorded s resource := inspect_eq_heldAt s _ resource
  effective s resource := by
    rw [Store.get, defaultValue_languageCodeActions, inspect_eq_heldAt, Option.orElse_eq_orElse,
      Option.orElse_eq_or, Option.or_none]
    rfl
  named := overridePath_eq_namedPath_iff l
  content := lookup_override_iff l
  shared := exists_same_path_iff l
  meets := override_apart_iff l
  apart _ plain plain' := override_apart_of_no_dot plain plain'

end Addresses

/-- The section of this language lies in a member named `[typescript`, and a language whose name has one
more dot has the same section. -/
theorem language_addressed_dotted :
    overridePath "typescript.tsx" = ["[typescript", "tsx]", "editor", "codeActionsOnSave"] ∧
      overridePath "typescript.tsx" ≠ namedPath "typescript.tsx" ∧
      overridePath "typescript..tsx" = overridePath "typescript.tsx" ∧
      KeyPath.Apart (overridePath "typescript") (overridePath "typescriptreact") := by
  have tsx : Addressed MemoryStore "typescript.tsx" := language_addressed "typescript.tsx"
  have plain : Addressed MemoryStore "typescript" := language_addressed "typescript"
  refine ⟨by decide +kernel, fun named => ?_, by decide +kernel, ?_⟩
  · exact absurd (tsx.named.mp named) (by decide)
  · exact (plain.apart "typescriptreact" (by decide) (by decide)).mpr (by decide)

end Migration

end LinterClient
